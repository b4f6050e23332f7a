import Mathlib.Data.List.Forall2
import StyleBlocks.Stylesheet.Edit
import StyleBlocks.Stylesheet.Rules

/-!
# Where rules stand

The rules of a stylesheet together with whether they stand in another rule and in which at-rules,
and what a walk over the rules does to them.
-/

namespace StyleBlocks

open List Node

variable (conditions : List AtHead) (site : Site) (l₁ l₂ : List Node) (ds : List Declaration)
  (e : RuleEdit) (node : Node) (head : RuleHead) (body : List Node) (inside : Bool)

/-- What carries over from the body of a rule or an at-rule to the node, and from the nodes behind a
node to the list that begins with it, holds of all lists of nodes. -/
theorem nodes_induct {P : List Node → Prop} (nil : P [])
    (rule : ∀ head body l, P body → P l → P (.rule head body :: l))
    (group : ∀ head body l, P body → P l → P (.group head body :: l))
    (statement : ∀ head l, P l → P (.statement head :: l))
    (declaration : ∀ d l, P l → P (.declaration d :: l))
    (comment : ∀ text location l, P l → P (.comment text location :: l)) : ∀ nodes, P nodes :=
  @Node.rec_1 (fun node => ∀ l, P l → P (node :: l)) P
    (fun head body hbody l => rule head body l hbody)
    (fun head body hbody l => group head body l hbody) statement declaration comment nil
    (fun _ l hnode => hnode l)

/-- The nodes in which there is no style rule that counts. -/
def Node.isLeaf : Node → Bool
  | .rule .. => false
  | .group head _ => head.holdsFrames
  | _ => true

variable {nodes : List Node} {r : Rule}

mutual

def placedRulesOfNode (inside : Bool) : Node → List (Bool × Rule)
  | .rule head body => (inside, ⟨head, body⟩) :: placedRules true body
  | .group head body => if head.holdsFrames then [] else placedRules inside body
  | _ => []

/-- The rules in a list of nodes, each with whether it stands in another rule. -/
def placedRules (inside : Bool) : List Node → List (Bool × Rule)
  | [] => []
  | node :: nodes => placedRulesOfNode inside node ++ placedRules inside nodes

end

def outerRules (nodes : List Node) : List Rule :=
  ((placedRules false nodes).filter (!·.1)).map Prod.snd

def nestedRules (nodes : List Node) : List Rule :=
  ((placedRules false nodes).filter Prod.fst).map Prod.snd

theorem mem_outerRules : r ∈ outerRules nodes ↔ (false, r) ∈ placedRules false nodes := by
  simp [outerRules]

theorem mem_nestedRules : r ∈ nestedRules nodes ↔ (true, r) ∈ placedRules false nodes := by
  simp [nestedRules]

theorem placedRules_append (l₁ l₂ : List Node) :
    placedRules inside (l₁ ++ l₂) = placedRules inside l₁ ++ placedRules inside l₂ := by
  induction l₁ with
  | nil => simp [placedRules]
  | cons node l₁ ih => simp [placedRules, ih]

theorem rulesOf_append : rulesOf (l₁ ++ l₂) = rulesOf l₁ ++ rulesOf l₂ := by
  induction l₁ with
  | nil => simp [rulesOf]
  | cons node l₁ ih => simp [rulesOf, ih]

theorem map_snd_placedRules (nodes : List Node) :
    (placedRules inside nodes).map Prod.snd = rulesOf nodes := by
  induction nodes using nodes_induct generalizing inside with
  | nil => rfl
  | rule head body l ihbody ih =>
    simp [placedRules, placedRulesOfNode, rulesOf, rulesOfNode, ihbody, ih]
  | group head body l ihbody ih =>
    by_cases h : head.holdsFrames <;>
      simp [placedRules, placedRulesOfNode, rulesOf, rulesOfNode, h, ihbody, ih]
  | statement _ l ih | declaration _ l ih | comment _ _ l ih => exact ih inside

theorem mem_rulesOf_iff : r ∈ rulesOf nodes ↔ ∃ place, (place, r) ∈ placedRules inside nodes := by
  rw [← map_snd_placedRules inside nodes]
  simp

theorem mem_rulesOf_iff_outer_or_nested :
    r ∈ rulesOf nodes ↔ r ∈ outerRules nodes ∨ r ∈ nestedRules nodes := by
  rw [mem_rulesOf_iff false, Bool.exists_bool, mem_outerRules, mem_nestedRules]

theorem placedRules_true (nodes : List Node) :
    placedRules true nodes = (rulesOf nodes).map (true, ·) := by
  induction nodes using nodes_induct with
  | nil => rfl
  | rule head body l ihbody ih =>
    simp [placedRules, placedRulesOfNode, rulesOf, rulesOfNode, ihbody, ih]
  | group head body l ihbody ih =>
    by_cases h : head.holdsFrames <;>
      simp [placedRules, placedRulesOfNode, rulesOf, rulesOfNode, h, ihbody, ih]
  | statement _ l ih | declaration _ l ih | comment _ _ l ih => exact ih

@[simp] theorem outerRules_nil : outerRules [] = [] := rfl

@[simp] theorem nestedRules_nil : nestedRules [] = [] := rfl

@[simp] theorem outerRules_append : outerRules (l₁ ++ l₂) = outerRules l₁ ++ outerRules l₂ := by
  simp [outerRules, placedRules_append]

@[simp] theorem nestedRules_append : nestedRules (l₁ ++ l₂) = nestedRules l₁ ++ nestedRules l₂ := by
  simp [nestedRules, placedRules_append]

theorem nestedRules_cons (nodes : List Node) :
    nestedRules (node :: nodes) = nestedRules [node] ++ nestedRules nodes :=
  nestedRules_append [node] nodes

theorem outerRules_rule : outerRules [.rule head body] = [⟨head, body⟩] := by
  simp [outerRules, placedRules, placedRulesOfNode, placedRules_true]

theorem nestedRules_rule : nestedRules [.rule head body] = rulesOf body := by
  simp only [nestedRules, placedRules, placedRulesOfNode, placedRules_true, append_nil]
  rw [filter_cons_of_neg (by simp), filter_eq_self.2 (by simp), map_map]
  exact map_id _

theorem nestedRules_group (head : AtHead) (body : List Node) :
    nestedRules [.group head body] = if head.holdsFrames then [] else nestedRules body := by
  by_cases h : head.holdsFrames <;> simp [nestedRules, placedRules, placedRulesOfNode, h]

theorem filterMap_declarations : (ds.map declaration).filterMap declaration? = ds := by
  induction ds with
  | nil => rfl
  | cons d ds ih => simp [declaration?, ih]

theorem filterMap_filter_declarations {p : Node → Bool} {q : Declaration → Bool}
    (h : ∀ d, p (.declaration d) = q d) (nodes : List Node) :
    (nodes.filter p).filterMap declaration? = (nodes.filterMap declaration?).filter q := by
  induction nodes with
  | nil => rfl
  | cons node nodes ih =>
    cases node with
    | declaration d =>
      have hcons : ∀ l : List Node, (Node.declaration d :: l).filterMap declaration?
          = d :: l.filterMap declaration? := fun l => rfl
      cases hq : q d with
      | true =>
        rw [filter_cons_of_pos ((h d).trans hq), hcons, ih, hcons, filter_cons_of_pos hq]
      | false =>
        rw [filter_cons_of_neg (by simp [h, hq]), ih, hcons, filter_cons_of_neg (by simp [hq])]
    | _ =>
      rw [filter_cons]
      split <;> exact ih

/-! ## Sites -/

/-- Where a rule stands: the at-rules around it, outermost first, and whether another rule is around
it. -/
structure Site where
  conditions : List AtHead
  inside : Bool

mutual

def rulesAtNode (site : Site) : Node → List (Site × Rule)
  | .rule head body => (site, ⟨head, body⟩) :: rulesAt { site with inside := true } body
  | .group head body =>
    if head.holdsFrames then []
    else rulesAt { site with conditions := site.conditions ++ [head] } body
  | _ => []

def rulesAt (site : Site) : List Node → List (Site × Rule)
  | [] => []
  | node :: nodes => rulesAtNode site node ++ rulesAt site nodes

end

theorem rulesAt_append : rulesAt site (l₁ ++ l₂) = rulesAt site l₁ ++ rulesAt site l₂ := by
  induction l₁ with
  | nil => simp [rulesAt]
  | cons node l₁ ih => simp [rulesAt, ih]

theorem map_rulesAt (nodes : List Node) :
    (rulesAt site nodes).map (fun a => (a.1.inside, a.2)) = placedRules site.inside nodes ∧
      (rulesAt site nodes).map (fun a => (a.1.conditions, a.2))
        = rulesUnder site.conditions nodes := by
  induction nodes using nodes_induct generalizing site with
  | nil => exact ⟨rfl, rfl⟩
  | rule head body l ihbody ih =>
    simp [rulesAt, rulesAtNode, placedRules, placedRulesOfNode, rulesUnder, rulesUnderNode, ihbody, ih]
  | group head body l ihbody ih =>
    by_cases h : head.holdsFrames <;> simp [rulesAt, rulesAtNode, placedRules, placedRulesOfNode,
      rulesUnder, rulesUnderNode, h, ihbody, ih]
  | statement _ l ih | declaration _ l ih | comment _ _ l ih => exact ih site

theorem map_snd_rulesAt (nodes : List Node) :
    (rulesAt site nodes).map Prod.snd = rulesOf nodes := by
  rw [← map_snd_placedRules site.inside, ← (map_rulesAt site nodes).1, map_map]
  rfl

theorem map_snd_rulesUnder (nodes : List Node) :
    (rulesUnder conditions nodes).map Prod.snd = rulesOf nodes := by
  rw [← map_snd_rulesAt ⟨conditions, false⟩, ← (map_rulesAt ⟨conditions, false⟩ nodes).2, map_map]
  rfl

theorem map_snd_rulesUnderNode :
    (rulesUnderNode conditions node).map Prod.snd = rulesOfNode node := by
  simpa [rulesUnder, rulesOf] using map_snd_rulesUnder conditions [node]

theorem Stylesheet.mem_rules_iff {sheet : Stylesheet} :
    r ∈ sheet.rules ↔ ∃ conditions, (conditions, r) ∈ sheet.conditionalRules := by
  rw [Stylesheet.rules, ← map_snd_rulesUnder [] sheet.nodes]
  simp [Stylesheet.conditionalRules]

theorem mem_rulesOf_iff_rulesAt : r ∈ rulesOf nodes ↔ ∃ place, (place, r) ∈ rulesAt site nodes := by
  rw [← map_snd_rulesAt site nodes]
  simp

theorem rulesAt_declarations : rulesAt site (ds.map .declaration) = [] := by
  induction ds with
  | nil => rfl
  | cons d ds ih => exact ih

theorem rulesOf_declarations : rulesOf (ds.map .declaration) = [] := by
  rw [← map_snd_rulesAt ⟨[], false⟩, rulesAt_declarations]
  rfl

theorem rulesAt_filter {p : Node → Bool}
    (h : ∀ node ∈ nodes, p node = false → rulesAtNode site node = []) :
    rulesAt site (nodes.filter p) = rulesAt site nodes := by
  induction nodes with
  | nil => rfl
  | cons node nodes ih =>
    have ih := ih fun m hm => h m (by simp [hm])
    cases hp : p node with
    | true => rw [filter_cons_of_pos hp, rulesAt, rulesAt, ih]
    | false =>
      rw [filter_cons_of_neg (by simp [hp]), ih, rulesAt, h node (by simp) hp, nil_append]

theorem forall₂_placedRules {R : Rule → Rule → Prop} {conditions : List AtHead} {inside : Bool}
    {nodes' : List Node}
    (h : Forall₂ (fun a b => a.1 = b.1 ∧ R a.2 b.2) (rulesAt ⟨conditions, inside⟩ nodes)
      (rulesAt ⟨conditions, inside⟩ nodes')) :
    Forall₂ (fun a b => a.1 = b.1 ∧ R a.2 b.2) (placedRules inside nodes)
      (placedRules inside nodes') := by
  rw [← (map_rulesAt ⟨conditions, inside⟩ nodes).1, ← (map_rulesAt ⟨conditions, inside⟩ nodes').1,
    forall₂_map_left_iff, forall₂_map_right_iff]
  exact h.imp fun a b hab => ⟨congrArg Site.inside hab.1, hab.2⟩

/-- The rules that stand in no other rule, each with the at-rules around it; `conditions` are around
all of them. -/
def outerRulesUnder (conditions : List AtHead) (nodes : List Node) : List (List AtHead × Rule) :=
  ((rulesAt ⟨conditions, false⟩ nodes).filter (!·.1.inside)).map fun a => (a.1.conditions, a.2)

theorem map_snd_outerRulesUnder (nodes : List Node) :
    (outerRulesUnder conditions nodes).map Prod.snd = outerRules nodes := by
  rw [outerRules, ← (map_rulesAt ⟨conditions, false⟩ nodes).1, outerRulesUnder, filter_map,
    map_map, map_map]
  rfl

theorem outerRulesUnder_append :
    outerRulesUnder conditions (l₁ ++ l₂)
      = outerRulesUnder conditions l₁ ++ outerRulesUnder conditions l₂ := by
  simp [outerRulesUnder, rulesAt_append]

theorem outerRulesUnder_cons (nodes : List Node) :
    outerRulesUnder conditions (node :: nodes)
      = outerRulesUnder conditions [node] ++ outerRulesUnder conditions nodes :=
  outerRulesUnder_append conditions [node] nodes

theorem outerRulesUnder_rule :
    outerRulesUnder conditions [.rule head body] = [(conditions, ⟨head, body⟩)] := by
  have hinside : ∀ a ∈ rulesAt ⟨conditions, true⟩ body, a.1.inside = true := by
    intro a ha
    have hplace := mem_map_of_mem (f := fun a => (a.1.inside, a.2)) ha
    rw [(map_rulesAt _ body).1, placedRules_true] at hplace
    obtain ⟨r, -, hr⟩ := mem_map.1 hplace
    exact (congrArg Prod.fst hr).symm
  simp only [outerRulesUnder, rulesAt, rulesAtNode, append_nil]
  rw [filter_cons_of_pos rfl, filter_eq_nil_iff.2 fun a ha => by simp [hinside a ha]]
  rfl

theorem outerRulesUnder_group (head : AtHead) (body : List Node) :
    outerRulesUnder conditions [.group head body]
      = if head.holdsFrames then [] else outerRulesUnder (conditions ++ [head]) body := by
  by_cases h : head.holdsFrames <;> simp [outerRulesUnder, rulesAt, rulesAtNode, h]

theorem rulesUnder_eq_flatMap (nodes : List Node) :
    rulesUnder conditions nodes
      = (outerRulesUnder conditions nodes).flatMap fun a => a :: rulesUnder a.1 a.2.body := by
  induction nodes using nodes_induct generalizing conditions with
  | nil => rfl
  | rule head body l _ ih =>
    rw [outerRulesUnder_cons, outerRulesUnder_rule, flatMap_append, ← ih, rulesUnder, rulesUnderNode,
      flatMap_singleton]
  | group head body l ihbody ih =>
    rw [outerRulesUnder_cons, outerRulesUnder_group, flatMap_append, ← ih, rulesUnder, rulesUnderNode]
    split
    · rfl
    · rw [← ihbody]
  | statement _ l ih | declaration _ l ih | comment _ _ l ih => exact ih conditions

theorem forall₂_outerRulesUnder {R : Rule → Rule → Prop} {conditions : List AtHead}
    {nodes' : List Node}
    (h : Forall₂ (fun a b => a.1 = b.1 ∧ R a.2 b.2) (rulesAt ⟨conditions, false⟩ nodes)
      (rulesAt ⟨conditions, false⟩ nodes')) :
    Forall₂ (fun a b => a.1 = b.1 ∧ R a.2 b.2) (outerRulesUnder conditions nodes)
      (outerRulesUnder conditions nodes') := by
  rw [outerRulesUnder, outerRulesUnder, forall₂_map_left_iff, forall₂_map_right_iff]
  refine (rel_filter (fun a b hab => ?_) h).imp fun a b hab =>
    ⟨congrArg Site.conditions hab.1, hab.2⟩
  show (!a.1.inside) = true ↔ (!b.1.inside) = true
  rw [hab.1]

/-! ## Changes of one rule -/

namespace RuleEdit

def applyDeclarations (e : RuleEdit) (ds : List Declaration) : List Declaration :=
  e.before ++ ds.map e.change ++ e.behind

theorem declaration?_applyNode :
    (e.applyNode node).declaration? = node.declaration?.map e.change := by
  cases node <;> rfl

theorem filterMap_applyBody :
    (e.applyBody body).filterMap declaration?
      = e.applyDeclarations (body.filterMap declaration?) := by
  have hb : (body.map e.applyNode).filterMap declaration?
      = (body.filterMap declaration?).map e.change := by
    rw [filterMap_map, map_filterMap]
    congr 1
    funext node
    exact e.declaration?_applyNode node
  rw [applyBody, filterMap_append, filterMap_append, filterMap_declarations,
    filterMap_declarations, hb, applyDeclarations]

theorem applyBody_of_change_eq_id (h : e.change = id) (body : List Node) :
    e.applyBody body = e.before.map .declaration ++ body ++ e.behind.map .declaration := by
  have hid : body.map e.applyNode = body := by
    refine (map_congr_left fun node _ => ?_).trans (map_id body)
    cases node <;> simp [applyNode, h]
  rw [applyBody, hid]

theorem rulesAt_applyBody (site : Site) (body : List Node) :
    rulesAt site (e.applyBody body) = rulesAt site body := by
  have hbody : rulesAt site (body.map e.applyNode) = rulesAt site body := by
    induction body with
    | nil => rfl
    | cons node body ih =>
      rw [map_cons, rulesAt, ih, rulesAt]
      cases node <;> rfl
  rw [applyBody, rulesAt_append, rulesAt_append, rulesAt_declarations, rulesAt_declarations,
    hbody, nil_append, append_nil]

end RuleEdit

/-! ## Walks -/

section

variable {σ ε : Type}

/-- A walk that ends without an error, from a state and nodes to nodes and a state. -/
inductive Walks (f : Visit σ ε) : σ → List Node → List Node → σ → Prop
  | nil {s : σ} : Walks f s [] [] s
  | leaf {s s' : σ} {node : Node} {l l' : List Node} (h : node.isLeaf = true)
      (hl : Walks f s l l' s') : Walks f s (node :: l) (node :: l') s'
  | group {s s₁ s' : σ} {head : AtHead} {body body' l l' : List Node}
      (h : head.holdsFrames = false) (hbody : Walks f s body body' s₁)
      (hl : Walks f s₁ l l' s') : Walks f s (.group head body :: l) (.group head body' :: l') s'
  | rule {s s₁ s' : σ} {head : RuleHead} {body body' l l' : List Node}
      (h : (f ⟨head, body⟩ s).error = none)
      (hbody : Walks f (f ⟨head, body⟩ s).state body body' s₁) (hl : Walks f s₁ l l' s') :
      Walks f s (.rule head body :: l) (.rule ((f ⟨head, body⟩ s).result.applyHead head)
        ((f ⟨head, body⟩ s).result.applyBody body') :: l') s'

variable {f : Visit σ ε} {I : σ → Prop}

theorem walks_editNodes {s : σ} (h : (editNodes f s nodes).error = none) :
    Walks f s nodes (editNodes f s nodes).result (editNodes f s nodes).state := by
  induction nodes using nodes_induct generalizing s with
  | nil => exact .nil
  | rule head body l ihbody ih =>
    rw [editNodes, editNode] at h ⊢
    cases hv : (f ⟨head, body⟩ s).error with
    | some e => simp [hv] at h
    | none =>
      simp only [hv] at h ⊢
      cases hb : (editNodes f (f ⟨head, body⟩ s).state body).error with
      | some e => simp [hb] at h
      | none =>
        simp only [hb] at h ⊢
        exact .rule hv (ihbody hb) (ih h)
  | group head body l ihbody ih =>
    rw [editNodes, editNode] at h ⊢
    cases hf : head.holdsFrames with
    | true =>
      simp only [hf, if_true] at h ⊢
      exact .leaf hf (ih h)
    | false =>
      simp only [hf, Bool.false_eq_true, if_false] at h ⊢
      cases hb : (editNodes f s body).error with
      | some e => simp [hb] at h
      | none =>
        simp only [hb] at h ⊢
        exact .group hf (ihbody hb) (ih h)
  | statement _ l ih | declaration _ l ih | comment _ _ l ih => exact .leaf rfl (ih h)

/-- The second rule is what a visit of the first one makes of it, from a state with `I`.  The rules
inside it are visited for themselves. -/
def VisitedTo (f : Visit σ ε) (I : σ → Prop) (r r' : Rule) : Prop :=
  ∃ s, I s ∧ (f r s).error = none ∧ r'.toRuleHead = (f r s).result.applyHead r.toRuleHead ∧
    r'.declarations = (f r s).result.applyDeclarations r.declarations ∧
    (rulesOf r.body = [] → r'.body = (f r s).result.applyBody r.body)

/-- The same rule in the same place after a visit. -/
def PlacedTo (f : Visit σ ε) (I : σ → Prop) {π : Type} (a b : π × Rule) : Prop :=
  a.1 = b.1 ∧ VisitedTo f I a.2 b.2

namespace Walks

variable {s s' : σ} {nodes' : List Node}

theorem filterMap_declaration? (h : Walks f s nodes nodes' s') :
    nodes'.filterMap declaration? = nodes.filterMap declaration? := by
  induction h with
  | nil => rfl
  | leaf _ _ ih => rw [filterMap_cons, filterMap_cons, ih]
  | group _ _ _ _ ih | rule _ _ _ _ ih => exact ih

theorem eq_of_rulesOf (h : Walks f s nodes nodes' s') (hrules : rulesOf nodes = []) :
    nodes' = nodes := by
  induction h with
  | nil => rfl
  | leaf _ _ ih => rw [ih (append_eq_nil_iff.1 hrules).2]
  | group hf _ _ ihbody ih =>
    rw [rulesOf, rulesOfNode, hf, append_eq_nil_iff] at hrules
    rw [ihbody hrules.1, ih hrules.2]
  | rule => cases hrules

/-- **A walk that ends without an error visits every rule once, in the order of the text, and leaves
each where it stands.** -/
theorem forall₂_rulesAt (h : Walks f s nodes nodes' s') (hI : ∀ r s, I s → I (f r s).state) (hs : I s)
    (site : Site) :
    I s' ∧ Forall₂ (PlacedTo f I) (rulesAt site nodes) (rulesAt site nodes') := by
  induction h generalizing site with
  | nil => exact ⟨hs, .nil⟩
  | @leaf _ _ node _ _ hleaf _ ih =>
    have hnone : rulesAtNode site node = [] := by
      cases node with
      | rule => cases hleaf
      | group head body => exact if_pos hleaf
      | _ => rfl
    rw [rulesAt, rulesAt, hnone]
    exact ih hs site
  | group hf _ _ ihbody ih =>
    obtain ⟨hs₁, hbody⟩ := ihbody hs { site with conditions := site.conditions ++ [_] }
    obtain ⟨hs', hl⟩ := ih hs₁ site
    simp only [rulesAt, rulesAtNode, hf]
    exact ⟨hs', rel_append hbody hl⟩
  | @rule s _ _ head body _ _ _ hv hwalk _ ihbody ih =>
    obtain ⟨hs₁, hbody⟩ := ihbody (hI _ _ hs) { site with inside := true }
    obtain ⟨hs', hl⟩ := ih hs₁ site
    refine ⟨hs', ?_⟩
    rw [rulesAt, rulesAt, rulesAtNode, rulesAtNode, RuleEdit.rulesAt_applyBody]
    refine .cons ⟨rfl, s, hs, hv, rfl, ?_, fun hnone => ?_⟩ (rel_append hbody hl)
    · rw [Rule.declarations, RuleEdit.filterMap_applyBody, hwalk.filterMap_declaration?]
      rfl
    · exact congrArg (f ⟨head, body⟩ s).result.applyBody (hwalk.eq_of_rulesOf hnone)

end Walks

end

end StyleBlocks
