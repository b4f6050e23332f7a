import StyleBlocks.Proofs.Stylesheet.Places

/-!
# All walks visit the same rules

The rules of a stylesheet can be folded, listed, listed with the at-rules around them, and edited one
after the other.  A place in a stylesheet is the list of indices that lead to it; places are ordered
as lists are, which is the order of the text.

Main result: `Stylesheet.walks_agree`.
-/

namespace StyleBlocks

open List

/-! ## The order of the text -/

/-- The style rule at a place, which is given by the indices of the nodes on the way to it. -/
def ruleAt? (nodes : List Node) : List Nat → Option Rule
  | [] => none
  | i :: place =>
    match nodes[i]? with
    | some (.rule head body) => if place = [] then some ⟨head, body⟩ else ruleAt? body place
    | some (.group head body) => if head.holdsFrames then none else ruleAt? body place
    | _ => none

/-- The rules are all that are found somewhere, in the order of their places: what stands in a node
comes behind it, and before what stands in the nodes that follow. -/
def InTextOrder (find : List Nat → Option Rule) (rules : List Rule) : Prop :=
  ∃ placed : List (List Nat × Rule), placed.Pairwise (·.1 < ·.1) ∧
    (∀ p r, (p, r) ∈ placed ↔ find p = some r) ∧ placed.map Prod.snd = rules

theorem InTextOrder.rule {find : List Nat → Option Rule} {rules : List Rule} {r : Rule}
    (h : InTextOrder find rules) (hnil : find [] = none) :
    InTextOrder (fun p => if p = [] then some r else find p) (r :: rules) := by
  obtain ⟨placed, hsorted, hmem, rfl⟩ := h
  refine ⟨([], r) :: placed, pairwise_cons.2 ⟨?_, hsorted⟩, fun p r' => ?_, rfl⟩
  · rintro ⟨p, r'⟩ hp
    cases p with
    | nil => simp [hmem, hnil] at hp
    | cons i p => exact nil_lt_cons i p
  · cases p <;> simp [hmem, hnil, eq_comm]

theorem InTextOrder.cons {node : Node} {nodes : List Node} {rules₁ rules₂ : List Rule}
    (h₁ : InTextOrder (fun p => ruleAt? [node] (0 :: p)) rules₁)
    (h₂ : InTextOrder (ruleAt? nodes) rules₂) :
    InTextOrder (ruleAt? (node :: nodes)) (rules₁ ++ rules₂) := by
  obtain ⟨placed₁, hsorted₁, hmem₁, rfl⟩ := h₁
  obtain ⟨placed₂, hsorted₂, hmem₂, rfl⟩ := h₂
  have hne : ∀ a ∈ placed₂, ∃ i p, a.1 = i :: p := by
    rintro ⟨_ | ⟨i, p⟩, r⟩ ha
    · simp [hmem₂, ruleAt?] at ha
    · exact ⟨i, p, rfl⟩
  refine ⟨placed₁.map (Prod.map (0 :: ·) id) ++ placed₂.map (Prod.map (modifyHead Nat.succ) id),
    pairwise_append.2 ⟨?_, ?_, ?_⟩, ?_, by simp [Function.comp_def]⟩
  · exact hsorted₁.map _ fun a b hab => cons_lt_cons_iff.2 (.inr ⟨rfl, hab⟩)
  · refine pairwise_map.2 (hsorted₂.imp_of_mem fun {a b} ha hb hab => ?_)
    obtain ⟨i, p, hp⟩ := hne a ha
    obtain ⟨j, q, hq⟩ := hne b hb
    simpa [hp, hq, cons_lt_cons_iff] using hab
  · simp only [mem_map]
    rintro _ ⟨a, -, rfl⟩ _ ⟨b, hb, rfl⟩
    obtain ⟨j, q, hq⟩ := hne b hb
    simp [hq, cons_lt_cons_iff]
  · intro p r
    have hbehind : (p, r) ∈ placed₂.map (Prod.map (modifyHead Nat.succ) id) ↔
        ∃ i q, p = (i + 1) :: q ∧ (i :: q, r) ∈ placed₂ := by
      rw [mem_map]
      constructor
      · rintro ⟨⟨q, r'⟩, hq, heq⟩
        obtain ⟨i, q, rfl⟩ := hne _ hq
        cases heq
        exact ⟨i, q, rfl, hq⟩
      · rintro ⟨i, q, hp, hq⟩
        exact ⟨(i :: q, r), hq, by simp [hp]⟩
    rw [mem_append, hbehind]
    rcases p with _ | ⟨_ | i, p⟩ <;> simp [hmem₁, hmem₂, ruleAt?]

theorem inTextOrder_rulesOf (nodes : List Node) : InTextOrder (ruleAt? nodes) (rulesOf nodes) := by
  have hnone : InTextOrder (fun _ => none) [] := ⟨[], .nil, by simp, rfl⟩
  induction nodes using nodes_induct with
  | nil => exact ⟨[], .nil, fun p => by cases p <;> simp [ruleAt?], rfl⟩
  | rule head body l ihbody ih =>
    exact .cons (by simpa [ruleAt?, rulesOfNode] using ihbody.rule rfl) ih
  | group head body l ihbody ih =>
    refine .cons ?_ ih
    by_cases hf : head.holdsFrames
    · simpa [ruleAt?, rulesOfNode, hf] using hnone
    · simpa [ruleAt?, rulesOfNode, hf] using ihbody
  | statement _ l ih | declaration _ l ih | comment _ _ l ih =>
    exact .cons (by simpa [ruleAt?, rulesOfNode] using hnone) ih

theorem foldRulesOf_eq {β : Type} (f : β → Rule → β) (nodes : List Node) (b : β) :
    foldRulesOf f b nodes = (rulesOf nodes).foldl f b := by
  induction nodes using nodes_induct generalizing b with
  | nil => rfl
  | rule head body l ihbody ih =>
    simp [foldRulesOf, foldRulesOfNode, rulesOf, rulesOfNode, ihbody, ih]
  | group head body l ihbody ih =>
    by_cases h : head.holdsFrames <;>
      simp [foldRulesOf, foldRulesOfNode, rulesOf, rulesOfNode, h, ihbody, ih]
  | statement _ l ih | declaration _ l ih | comment _ _ l ih => exact ih b

/-! ## Editing -/

variable {σ ε : Type}

/-- The second rule is the first one with the edit made.  The rules inside it are edited for
themselves. -/
def RuleEdit.Makes (e : RuleEdit) (r r' : Rule) : Prop :=
  r'.toRuleHead = e.applyHead r.toRuleHead ∧
    r'.declarations = e.applyDeclarations r.declarations

/-- The rules of a list are visited one after the other, up to the first failure.  Behind it they are
left as they are. -/
inductive Visits (f : Visit σ ε) : σ → List Rule → List Rule → σ → Option ε → Prop
  | nil {s : σ} : Visits f s [] [] s none
  | fail {s : σ} {r r' : Rule} {rules : List Rule} {e : ε} (h : (f r s).error = some e)
      (hr : (f r s).result.Makes r r') : Visits f s (r :: rules) (r' :: rules) (f r s).state (some e)
  | cons {s s' : σ} {r r' : Rule} {rules rules' : List Rule} {error : Option ε}
      (h : (f r s).error = none) (hr : (f r s).result.Makes r r')
      (hrules : Visits f (f r s).state rules rules' s' error) :
      Visits f s (r :: rules) (r' :: rules') s' error

namespace Visits

variable {f : Visit σ ε} {s s₁ s₂ : σ} {l l' m m' : List Rule} {error : Option ε}

theorem append (h : Visits f s l l' s₁ none) (h' : Visits f s₁ m m' s₂ error) :
    Visits f s (l ++ m) (l' ++ m') s₂ error := by
  generalize hnone : (none : Option ε) = e at h
  induction h with
  | nil => exact h'
  | fail => cases hnone
  | cons hv hr _ ih => exact .cons hv hr (ih h' hnone)

theorem append_of_fail {e : ε} (h : Visits f s l l' s₁ (some e)) (m : List Rule) :
    Visits f s (l ++ m) (l' ++ m) s₁ (some e) := by
  generalize hsome : some e = error at h
  induction h with
  | nil => cases hsome
  | fail hv hr =>
    cases hsome
    exact .fail hv hr
  | cons hv hr _ ih => exact .cons hv hr (ih hsome)

end Visits

theorem RuleEdit.rulesOf_applyBody (e : RuleEdit) (body : List Node) :
    rulesOf (e.applyBody body) = rulesOf body := by
  rw [← map_snd_rulesAt ⟨[], false⟩, rulesAt_applyBody, map_snd_rulesAt]

theorem filterMap_declaration?_editNodes (f : Visit σ ε) (s : σ) (nodes : List Node) :
    (editNodes f s nodes).result.filterMap Node.declaration?
      = nodes.filterMap Node.declaration? := by
  induction nodes generalizing s with
  | nil => rfl
  | cons node nodes ih =>
    have hnode : (editNode f s node).result.declaration? = node.declaration? := by
      cases node with
      | rule head body =>
        rw [editNode]
        dsimp only
        cases (f ⟨head, body⟩ s).error <;> rfl
      | group head body =>
        rw [editNode]
        split <;> rfl
      | _ => rfl
    rw [editNodes]
    dsimp only
    cases (editNode f s node).error with
    | some e => rw [filterMap_cons, filterMap_cons, hnode]
    | none => rw [filterMap_cons, filterMap_cons, hnode, ih]

/-- **Editing visits the rules in the order in which they are listed.** -/
theorem visits_editNodes (f : Visit σ ε) (nodes : List Node) (s : σ) :
    Visits f s (rulesOf nodes) (rulesOf (editNodes f s nodes).result) (editNodes f s nodes).state
      (editNodes f s nodes).error := by
  -- the rules of a node are visited, and then, unless one failed, those of the nodes behind it
  have hcons : ∀ node l, (∀ s, Visits f s (rulesOf l) (rulesOf (editNodes f s l).result)
      (editNodes f s l).state (editNodes f s l).error) → ∀ s, Visits f s (rulesOfNode node)
      (rulesOfNode (editNode f s node).result) (editNode f s node).state (editNode f s node).error →
      Visits f s (rulesOf (node :: l)) (rulesOf (editNodes f s (node :: l)).result)
        (editNodes f s (node :: l)).state (editNodes f s (node :: l)).error := by
    intro node l ih s hnode
    rw [editNodes, rulesOf]
    dsimp only
    cases he : (editNode f s node).error with
    | some e => exact (he ▸ hnode).append_of_fail _
    | none => exact (he ▸ hnode).append (ih _)
  induction nodes using nodes_induct generalizing s with
  | nil => exact .nil
  | rule head body l ihbody ih =>
    refine hcons _ l ih s ?_
    rw [editNode]
    dsimp only
    cases he : (f ⟨head, body⟩ s).error with
    | some e =>
      simp only [rulesOfNode, RuleEdit.rulesOf_applyBody]
      exact .fail he ⟨rfl, RuleEdit.filterMap_applyBody _ body⟩
    | none =>
      simp only [rulesOfNode, RuleEdit.rulesOf_applyBody]
      refine .cons he ⟨rfl, ?_⟩ (ihbody _)
      rw [Rule.declarations, RuleEdit.filterMap_applyBody, filterMap_declaration?_editNodes]
      rfl
  | group head body l ihbody ih =>
    refine hcons _ l ih s ?_
    rw [editNode]
    by_cases hf : head.holdsFrames = true
    · simp only [hf, if_true, rulesOfNode]
      exact .nil
    · simp only [hf, Bool.false_eq_true, if_false, rulesOfNode]
      exact ihbody s
  | statement _ l ih | declaration _ l ih | comment _ _ l ih => exact hcons _ l ih s .nil

/-- **All walks agree.**  The rules of a stylesheet are those outside `@keyframes`, in the order of the
text, a rule before the rules inside it.  Folding goes through them in this order, and so do listing
them with the at-rules around them and editing them.  Where an edit fails, the rules that come later
in the order are left as they are. -/
theorem Stylesheet.walks_agree {β : Type} (sheet : Stylesheet) (g : β → Rule → β) (b : β)
    (f : Visit σ ε) (s : σ) :
    InTextOrder (ruleAt? sheet.nodes) sheet.rules ∧
      sheet.foldRules g b = sheet.rules.foldl g b ∧
      sheet.conditionalRules.map Prod.snd = sheet.rules ∧
      Visits f s sheet.rules (sheet.editRules f s).result.rules (sheet.editRules f s).state
        (sheet.editRules f s).error :=
  ⟨inTextOrder_rulesOf sheet.nodes, foldRulesOf_eq g sheet.nodes b,
    map_snd_rulesUnder [] sheet.nodes, visits_editNodes f sheet.nodes s⟩

end StyleBlocks
