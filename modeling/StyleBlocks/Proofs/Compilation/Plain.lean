import StyleBlocks.Proofs.Cascade
import StyleBlocks.Proofs.Compilation.Scope
import StyleBlocks.Proofs.Property

/-!
# Plain stylesheets

A stylesheet is plain if its rules stand in no at-rules and in no other rules, each has one selector
of one compound without pseudo-classes and pseudo-elements, and all declarations set longhands to
values that ask for nothing.  A rule may not write one property in two ways, such as `color` and
`Color`.
-/

namespace StyleBlocks

open List Node

variable {nodes : List Node} {r : Rule} {sheet : Stylesheet} {d : Declaration}

/-! ## Declarations and rules -/

/-- A longhand without a priority, and a value that is no call for a resolution. -/
def Declaration.isPlain (d : Declaration) : Bool :=
  covered d.property == [lowercase d.property] && !d.important &&
    match Resolution.parse d.value with
    | .ok none => true
    | _ => false

def Rule.declared (r : Rule) (property : String) : List Declaration :=
  r.declarations.filter (·.property = property)

/-- One selector of one compound without pseudo-classes and pseudo-elements, and plain declarations
that write each property in one way. -/
def Rule.isPlain (r : Rule) : Bool :=
  (match Selector.parseList r.selector with
    | .ok [s] => s.context.isEmpty && !s.key.any Simple.isPseudo
    | _ => false) && r.declarations.all Declaration.isPlain &&
      r.declarations.all fun d => (r.setting d.property).all (·.property == d.property)

/-- No rule stands in the node, or it is one itself. -/
def Node.isFlat : Node → Bool
  | .rule _ body => (rulesOf body).isEmpty
  | node => (rulesOfNode node).isEmpty

/-- All rules are plain and stand in no at-rules and in no other rules. -/
def Stylesheet.isPlain (sheet : Stylesheet) : Bool :=
  sheet.nodes.all Node.isFlat && sheet.rules.all Rule.isPlain

theorem overlaps_eq {p q : String} (hp : covered p = [lowercase p])
    (hq : covered q = [lowercase q]) : overlaps p q = sameIgnoringCase p q := by
  rw [Bool.eq_iff_iff, sameIgnoringCase_iff]
  simp [overlaps, hp, hq, eq_comm]

namespace Declaration

theorem isPlain_iff : d.isPlain = true ↔ covered d.property = [lowercase d.property] ∧
    d.important = false ∧ Resolution.parse d.value = .ok none := by
  unfold isPlain
  rw [Bool.and_eq_true, Bool.and_eq_true, beq_iff_eq, Bool.not_eq_true', and_assoc]
  rcases Resolution.parse d.value with e | _ | resolution <;> simp

theorem covered_of_isPlain (h : d.isPlain = true) : covered d.property = [lowercase d.property] :=
  (isPlain_iff.1 h).1

theorem asksResolution_of_isPlain (h : d.isPlain = true) : d.asksResolution = false := by
  rw [asksResolution, (isPlain_iff.1 h).2.2]

end Declaration

namespace Rule

variable {p : String}

theorem mem_setting : d ∈ r.setting p ↔
    d ∈ r.declarations ∧ lowercase d.property = lowercase p := by
  rw [setting, mem_filter, sameIgnoringCase_iff]

theorem mem_declared : d ∈ r.declared p ↔ d ∈ r.declarations ∧ d.property = p := by
  rw [declared, mem_filter, decide_eq_true_iff]

theorem setting_ne_nil (h : r.declared p ≠ []) : r.setting p ≠ [] := by
  obtain ⟨d, hd⟩ := exists_mem_of_ne_nil _ h
  obtain ⟨hmem, hp⟩ := mem_declared.1 hd
  exact ne_nil_of_mem (mem_setting.2 ⟨hmem, congrArg lowercase hp⟩)

theorem setting_congr {q : String} (h : lowercase p = lowercase q) : r.setting p = r.setting q := by
  unfold setting sameIgnoringCase
  rw [h]

theorem isPlain_iff : r.isPlain = true ↔
    (∃ key : Compound, Selector.parseList r.selector = .ok [⟨[], key⟩] ∧
      ∀ s ∈ key, s.isPseudo = false) ∧ (∀ d ∈ r.declarations, d.isPlain = true) ∧
    ∀ d ∈ r.declarations, ∀ e ∈ r.setting d.property, e.property = d.property := by
  unfold isPlain
  simp only [Bool.and_eq_true, all_eq_true, and_assoc, beq_iff_eq]
  refine and_congr_left fun _ => ?_
  constructor
  · intro h
    split at h
    · rename_i s hs
      obtain ⟨context, key⟩ := s
      simp only [Bool.and_eq_true, List.isEmpty_iff, Bool.not_eq_true', any_eq_false,
        Bool.not_eq_true] at h
      obtain ⟨rfl, hkey⟩ := h
      exact ⟨key, hs, hkey⟩
    · cases h
  · rintro ⟨key, hparse, hkey⟩
    rw [hparse]
    simpa using hkey

theorem declarations_of_isPlain (h : r.isPlain = true) : ∀ d ∈ r.declarations, d.isPlain = true :=
  (isPlain_iff.1 h).2.1

theorem eq_of_declared_eq {q : String} (hq : r.declared q ≠ []) (h : r.declared q = r.declared p) :
    q = p := by
  obtain ⟨d, hd⟩ := exists_mem_of_ne_nil _ hq
  rw [← (mem_declared.1 hd).2]
  exact (mem_declared.1 (h ▸ hd)).2

theorem covered_of_setting (h : ∀ d ∈ r.declarations, d.isPlain = true) (hp : r.setting p ≠ []) :
    covered p = [lowercase p] := by
  obtain ⟨d, hd⟩ := exists_mem_of_ne_nil _ hp
  obtain ⟨hd, hdp⟩ := mem_setting.1 hd
  rw [← covered_congr hdp, ← hdp]
  exact Declaration.covered_of_isPlain (h d hd)

theorem setting_eq_declared (h : ∀ d ∈ r.declarations, ∀ e ∈ r.setting d.property,
    e.property = d.property) (hp : r.declared p ≠ []) : r.setting p = r.declared p := by
  obtain ⟨d, hd⟩ := exists_mem_of_ne_nil _ hp
  obtain ⟨hmem, rfl⟩ := mem_declared.1 hd
  refine filter_congr fun e he => ?_
  rw [Bool.eq_iff_iff, sameIgnoringCase_iff, decide_eq_true_iff]
  constructor
  · intro heq
    exact h d hmem e (mem_setting.2 ⟨he, heq⟩)
  · intro heq
    rw [heq]

theorem exists_setting_eq (h : ∀ d ∈ r.declarations, ∀ e ∈ r.setting d.property,
    e.property = d.property) (hp : r.setting p ≠ []) :
    ∃ q, lowercase q = lowercase p ∧ r.declared q ≠ [] ∧ r.setting p = r.declared q := by
  obtain ⟨d, hd⟩ := exists_mem_of_ne_nil _ hp
  obtain ⟨hmem, hdp⟩ := mem_setting.1 hd
  have hdeclared : r.declared d.property ≠ [] := ne_nil_of_mem (mem_declared.2 ⟨hmem, rfl⟩)
  refine ⟨d.property, hdp, hdeclared, ?_⟩
  rw [← setting_congr hdp, setting_eq_declared h hdeclared]

theorem valuesFor_eq (h : ∀ d ∈ r.declarations, d.isPlain = true) (hp : covered p = [lowercase p]) :
    Job.valuesFor r p = r.setting p := by
  refine filter_congr fun d hd => ?_
  rw [Declaration.asksResolution_of_isPlain (h d hd), Bool.not_false, Bool.and_true,
    overlaps_eq (Declaration.covered_of_isPlain (h d hd)) hp]

end Rule

theorem Stylesheet.isPlain_of_mem (h : sheet.isPlain = true) (hr : r ∈ sheet.rules) :
    r.isPlain = true :=
  all_eq_true.1 (Bool.and_eq_true_iff.1 h).2 r hr

theorem Stylesheet.declarations_of_isPlain (h : sheet.isPlain = true) (hr : r ∈ sheet.rules) :
    ∀ d ∈ r.declarations, d.isPlain = true :=
  r.declarations_of_isPlain (isPlain_of_mem h hr)

/-! ## Flat nodes -/

theorem rulesOf_of_mem_flat (h : nodes.all isFlat = true) (hr : r ∈ rulesOf nodes) :
    rulesOf r.body = [] := by
  induction nodes with
  | nil => cases hr
  | cons node nodes ih =>
    rw [all_cons, Bool.and_eq_true] at h
    rcases mem_append.1 hr with hr | hr
    · cases node with
      | rule head body =>
        have hbody : rulesOf body = [] := List.isEmpty_iff.1 h.1
        rw [rulesOfNode, hbody, mem_singleton] at hr
        rw [hr]
        exact hbody
      | group head body =>
        rw [List.isEmpty_iff.1 h.1] at hr
        cases hr
      | _ => cases hr
    · exact ih h.2 hr

theorem rulesUnder_of_flat (h : nodes.all isFlat = true) :
    rulesUnder [] nodes = (rulesOf nodes).map fun r => ([], r) := by
  induction nodes with
  | nil => rfl
  | cons node nodes ih =>
    rw [all_cons, Bool.and_eq_true] at h
    rw [rulesUnder, rulesOf, map_append, ih h.2]
    congr 1
    cases node with
    | rule head body =>
      have hbody : rulesOf body = [] := List.isEmpty_iff.1 h.1
      have hunder : rulesUnder [] body = [] := by
        rw [← map_eq_nil_iff (f := Prod.snd), map_snd_rulesUnder, hbody]
      rw [rulesUnderNode, rulesOfNode, hbody, hunder]
      rfl
    | group head body =>
      have hnone : rulesOfNode (.group head body) = [] := List.isEmpty_iff.1 h.1
      have hunder : rulesUnderNode [] (.group head body) = [] := by
        rw [← map_eq_nil_iff (f := Prod.snd), map_snd_rulesUnderNode, hnone]
      rw [hnone, hunder]
      rfl
    | _ => rfl

theorem nestedRules_of_flat (h : nodes.all isFlat = true) : nestedRules nodes = [] := by
  induction nodes with
  | nil => rfl
  | cons node nodes ih =>
    rw [all_cons, Bool.and_eq_true] at h
    rw [nestedRules_cons, ih h.2, append_nil]
    cases node with
    | rule head body => rw [nestedRules_rule, List.isEmpty_iff.1 h.1]
    | group head body =>
      have hnone : placedRules false [.group head body] = [] := by
        rw [← map_eq_nil_iff (f := Prod.snd), map_snd_placedRules, rulesOf, rulesOf, append_nil]
        exact List.isEmpty_iff.1 h.1
      rw [nestedRules, hnone]
      rfl
    | _ => rfl

theorem placedRules_of_nestedRules (h : nestedRules nodes = []) :
    placedRules false nodes = (rulesOf nodes).map fun r => (false, r) := by
  rw [← map_snd_placedRules false, map_map]
  refine (map_id _).symm.trans (map_congr_left fun a ha => ?_)
  obtain ⟨inside, r⟩ := a
  cases inside with
  | false => rfl
  | true =>
    rw [← mem_nestedRules, h] at ha
    cases ha

theorem outerRules_of_nestedRules (h : nestedRules nodes = []) :
    outerRules nodes = rulesOf nodes := by
  rw [outerRules, placedRules_of_nestedRules h, filter_map, map_map]
  simp [Function.comp_def]

theorem rulesOf_clearNodes (h : rulesOf nodes = []) : rulesOf (clearNodes nodes) = [] := by
  refine eq_nil_iff_forall_not_mem.2 fun r hr => ?_
  obtain ⟨r₀, hr₀, -⟩ := exists_of_mem_clearNodes hr
  rw [h] at hr₀
  cases hr₀

theorem exists_clearNode_rule (head : RuleHead) {body : List Node} (h : rulesOf body = []) :
    ∃ kept, rulesOf kept = [] ∧ (⟨head, kept⟩ : Rule).declarations
        = (⟨head, body⟩ : Rule).declarations.filter (fun d => !languageProperties.contains d.property) ∧
      (clearNode (.rule head body) = [.rule head kept] ∨
        clearNode (.rule head body) = [] ∧ (⟨head, kept⟩ : Rule).declarations = []) := by
  refine ⟨(clearNodes body).filter (!·.isBlockDeclaration), ?_, ?_, ?_⟩
  · rw [← map_snd_rulesAt ⟨[], false⟩, rulesAt_filter, map_snd_rulesAt, rulesOf_clearNodes h]
    intro node _ hnode
    cases node with
    | declaration d => rfl
    | _ => cases hnode
  · rw [Rule.declarations, filterMap_filter_isBlockDeclaration, filterMap_clearNodes]
    rfl
  by_cases hgone : (body.any isBlockDeclaration &&
      ((clearNodes body).filter (!·.isBlockDeclaration)).all isComment) = true
  · obtain ⟨-, hcomments⟩ := Bool.and_eq_true_iff.1 hgone
    refine .inr ⟨if_pos hgone, filterMap_eq_nil_iff.2 fun node hnode => ?_⟩
    have := all_eq_true.1 hcomments node hnode
    cases node with
    | comment => rfl
    | _ => cases this
  · exact .inl (if_neg hgone)

/-- **Nothing is lost when the block language is taken out** of flat nodes, of what depends on the
heads of rules and on their other declarations. -/
theorem flatMap_clearNodes {β : Type} {f : Rule → List β} (h : nodes.all isFlat = true)
    (hf : ∀ r r', r'.toRuleHead = r.toRuleHead → r'.declarations
      = r.declarations.filter (fun d => !languageProperties.contains d.property) → f r' = f r)
    (hnil : ∀ r, r.declarations = [] → f r = []) :
    (clearNodes nodes).all isFlat = true ∧
      (rulesOf (clearNodes nodes)).flatMap f = (rulesOf nodes).flatMap f := by
  induction nodes with
  | nil => exact ⟨rfl, rfl⟩
  | cons node nodes ih =>
    rw [all_cons, Bool.and_eq_true] at h
    obtain ⟨hflat, hsum⟩ := ih h.2
    rw [clearNodes, all_append, Bool.and_eq_true, rulesOf_append, flatMap_append, hsum,
      rulesOf, flatMap_append]
    suffices H : (clearNode node).all isFlat = true ∧
        (rulesOf (clearNode node)).flatMap f = (rulesOfNode node).flatMap f from
      ⟨⟨H.1, hflat⟩, by rw [H.2]⟩
    cases node with
    | rule head body =>
      have hbody : rulesOf body = [] := List.isEmpty_iff.1 h.1
      obtain ⟨kept, hrules, hdeclarations, hclear⟩ := exists_clearNode_rule head hbody
      rw [rulesOfNode, hbody, flatMap_singleton, ← hf ⟨head, body⟩ ⟨head, kept⟩ rfl hdeclarations]
      rcases hclear with hclear | ⟨hclear, hnone⟩
      · rw [hclear, rulesOf, rulesOf, rulesOfNode, hrules]
        exact ⟨by simp [isFlat, hrules], by simp⟩
      · rw [hclear, hnil _ hnone]
        exact ⟨rfl, rfl⟩
    | group head body =>
      have hnone : rulesOfNode (.group head body) = [] := List.isEmpty_iff.1 h.1
      rw [hnone, clearNode]
      split
      · exact ⟨rfl, rfl⟩
      have hcleared : rulesOfNode (.group head (clearNodes body)) = [] := by
        rw [rulesOfNode] at hnone ⊢
        split at hnone
        · rw [if_pos ‹_›]
        · rw [if_neg ‹_›, rulesOf_clearNodes hnone]
      exact ⟨by simp [isFlat, hcleared], by simp [rulesOf, hcleared]⟩
    | statement head =>
      rw [clearNode]
      split <;> exact ⟨rfl, rfl⟩
    | declaration d | comment text location => exact ⟨rfl, rfl⟩

end StyleBlocks
