import StyleBlocks.Proofs.Stylesheet.Places

/-!
# Changes that leave a stylesheet's nodes in their order

A change of a stylesheet may rewrite the heads of style rules, add declarations to the bodies of
rules and take some out, and put new nodes behind rules.  All else stays what it is and where it is.

Main result: `relates_editNodes`.
-/

namespace StyleBlocks

/-- What a change may do: which heads it puts in the place of others, which declarations it adds to
rules or takes out, and which nodes it puts behind rules. -/
structure Changes where
  head : RuleHead → RuleHead → Prop
  adds : Declaration → Prop
  drops : Declaration → Prop
  inserts : Node → Prop

namespace Changes

/-- The nodes before and after a change; `inside` says that they are the body of a rule. -/
inductive Relates (e : Changes) : Bool → List Node → List Node → Prop
  | nil {inside : Bool} : Relates e inside [] []
  | leaf {inside : Bool} {node : Node} {l m : List Node} (h : node.isLeaf = true)
      (hl : Relates e inside l m) : Relates e inside (node :: l) (node :: m)
  | add {d : Declaration} {l m : List Node} (h : e.adds d) (hl : Relates e true l m) :
      Relates e true l (.declaration d :: m)
  | drop {d : Declaration} {l m : List Node} (h : e.drops d) (hl : Relates e true l m) :
      Relates e true (.declaration d :: l) m
  | group {inside : Bool} {head : AtHead} {body body' l m : List Node}
      (h : head.holdsFrames = false) (hbody : Relates e false body body')
      (hl : Relates e inside l m) :
      Relates e inside (.group head body :: l) (.group head body' :: m)
  | rule {inside : Bool} {head head' : RuleHead} {body body' l m new : List Node}
      (h : e.head head head') (hnew : ∀ node ∈ new, e.inserts node)
      (hbody : Relates e true body body') (hl : Relates e inside l m) :
      Relates e inside (.rule head body :: l) (.rule head' body' :: (new ++ m))

/-- One change after the other. -/
def comp (e f : Changes) : Changes where
  head h h'' := ∃ h', e.head h h' ∧ f.head h' h''
  adds := e.adds
  drops d := e.drops d ∨ f.drops d
  inserts := f.inserts

namespace Relates

variable {e f : Changes} {inside : Bool} {l l' m m' k : List Node}

theorem rule_alone {head head' : RuleHead} {body body' : List Node} (h : e.head head head')
    (hbody : e.Relates true body body') (hl : e.Relates inside l m) :
    e.Relates inside (.rule head body :: l) (.rule head' body' :: m) := by
  have hnew : ∀ node ∈ ([] : List Node), e.inserts node := by simp
  exact .rule h hnew hbody hl

theorem append (h : e.Relates inside l m) (h' : e.Relates inside l' m') :
    e.Relates inside (l ++ l') (m ++ m') := by
  induction h with
  | nil => exact h'
  | leaf hleaf _ ih => exact .leaf hleaf (ih h')
  | add hd _ ih => exact .add hd (ih h')
  | drop hd _ ih => exact .drop hd (ih h')
  | group hf hbody _ _ ih => exact .group hf hbody (ih h')
  | rule hhead hnew hbody _ _ ih =>
    rw [List.cons_append, List.cons_append, List.append_assoc]
    exact .rule hhead hnew hbody (ih h')

theorem addAll {ds : List Declaration} (hds : ∀ d ∈ ds, e.adds d) (h : e.Relates true l m) :
    e.Relates true l (ds.map .declaration ++ m) := by
  induction ds with
  | nil => exact h
  | cons d ds ih => exact .add (hds d (by simp)) (ih fun d' hd' => hds d' (by simp [hd']))

theorem refl (he : ∀ h, e.head h h) (inside : Bool) (nodes : List Node) :
    e.Relates inside nodes nodes := by
  induction nodes using nodes_induct generalizing inside with
  | nil => exact .nil
  | rule head body l ihbody ih => exact rule_alone (he head) (ihbody true) (ih inside)
  | group head body l ihbody ih =>
    cases hf : head.holdsFrames with
    | true => exact .leaf hf (ih inside)
    | false => exact .group hf (ihbody false) (ih inside)
  | statement _ l ih | declaration _ l ih | comment _ _ l ih => exact .leaf rfl (ih inside)

theorem mono (h : e.Relates inside l m) (hhead : ∀ h h', e.head h h' → f.head h h')
    (hadds : ∀ d, e.adds d → f.adds d) (hdrops : ∀ d, e.drops d → f.drops d)
    (hinserts : ∀ node, e.inserts node → f.inserts node) : f.Relates inside l m := by
  induction h with
  | nil => exact .nil
  | leaf hleaf _ ih => exact .leaf hleaf ih
  | add hd _ ih => exact .add (hadds _ hd) ih
  | drop hd _ ih => exact .drop (hdrops _ hd) ih
  | group hf _ _ ihbody ih => exact .group hf ihbody ih
  | rule hh hnew _ _ ihbody ih =>
    exact .rule (hhead _ _ hh) (fun node hn => hinserts node (hnew node hn)) ihbody ih

/-- **Two changes after each other are one change**, if the first puts no nodes behind rules and the
second adds no declarations. -/
theorem comp (hnone : ∀ node, ¬e.inserts node) (hadds : ∀ d, ¬f.adds d)
    (h : e.Relates inside l m) (h' : f.Relates inside m k) : (e.comp f).Relates inside l k := by
  induction h generalizing k with
  | nil =>
    cases h' with
    | nil => exact .nil
    | add hd _ => exact absurd hd (hadds _)
  | leaf hleaf _ ih =>
    cases h' with
    | leaf _ hl => exact .leaf hleaf (ih hl)
    | add hd _ => exact absurd hd (hadds _)
    | drop hd hl => exact .drop (.inr hd) (ih hl)
    | group hf => exact absurd hleaf (by simp [Node.isLeaf, hf])
    | rule => cases hleaf
  | add hd _ ih =>
    cases h' with
    | leaf _ hl => exact .add hd (ih hl)
    | add hd' _ => exact absurd hd' (hadds _)
    | drop _ hl => exact ih hl
  | drop hd _ ih => exact .drop (.inl hd) (ih h')
  | group hf _ _ ihbody ih =>
    cases h' with
    | leaf hleaf _ => exact absurd hleaf (by simp [Node.isLeaf, hf])
    | add hd _ => exact absurd hd (hadds _)
    | group _ hbody hl => exact .group hf (ihbody hbody) (ih hl)
  | @rule _ _ _ _ _ _ _ new hhead hnew _ _ ihbody ih =>
    obtain rfl : new = [] := List.eq_nil_iff_forall_not_mem.2 fun node hn => hnone node (hnew node hn)
    cases h' with
    | leaf hleaf _ => cases hleaf
    | add hd _ => exact absurd hd (hadds _)
    | rule hhead' hnew' hbody hl => exact .rule ⟨_, hhead, hhead'⟩ hnew' (ihbody hbody) (ih hl)

end Relates

end Changes

/-! ## Walks -/

/-- A visit that puts declarations before all else in a rule, and may rewrite its head. -/
structure Visit.IsChange {σ ε : Type} (f : Visit σ ε) (I : σ → Prop) (e : Changes) : Prop where
  keeps : ∀ r s, I s → I (f r s).state
  change : ∀ r s, (f r s).result.change = id
  behind : ∀ r s, (f r s).result.behind = []
  head : ∀ r s, I s → (f r s).error = none →
    e.head r.toRuleHead ((f r s).result.applyHead r.toRuleHead)
  before : ∀ r s, ∀ d ∈ (f r s).result.before, e.adds d

section

variable {σ ε : Type} {f : Visit σ ε} {I : σ → Prop} {e : Changes} {s s' : σ}
  {nodes nodes' : List Node}

theorem Walks.relates (hw : Walks f s nodes nodes' s') (h : Visit.IsChange f I e) (hs : I s)
    (inside : Bool) : I s' ∧ e.Relates inside nodes nodes' := by
  induction hw generalizing inside with
  | nil => exact ⟨hs, .nil⟩
  | leaf hleaf _ ih => exact ⟨(ih hs inside).1, .leaf hleaf (ih hs inside).2⟩
  | group hf _ _ ihbody ih =>
    obtain ⟨hs₁, hbody⟩ := ihbody hs false
    obtain ⟨hs', hl⟩ := ih hs₁ inside
    exact ⟨hs', .group hf hbody hl⟩
  | rule hv _ _ ihbody ih =>
    obtain ⟨hs₁, hbody⟩ := ihbody (h.keeps _ _ hs) true
    obtain ⟨hs', hl⟩ := ih hs₁ inside
    refine ⟨hs', .rule_alone (h.head _ _ hs hv) ?_ hl⟩
    rw [RuleEdit.applyBody_of_change_eq_id _ (h.change _ _), h.behind, List.map_nil, List.append_nil]
    exact hbody.addAll (h.before _ _)

/-- **A walk of such visits is a change.** -/
theorem relates_editNodes (h : Visit.IsChange f I e) (inside : Bool) (hs : I s)
    (nodes : List Node) (herror : (editNodes f s nodes).error = none) :
    I (editNodes f s nodes).state ∧ e.Relates inside nodes (editNodes f s nodes).result :=
  (walks_editNodes herror).relates h hs inside

end

end StyleBlocks
