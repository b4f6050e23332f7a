import StyleBlocks.Compilation.Run
import StyleBlocks.Proofs.Steps

/-!
# The table of read selectors says nothing of its own

Every entry of a table holds what its text reads as, so looking a rule up is the same as reading its
selector, and the edits that two walks make do not depend on the table.
-/

namespace StyleBlocks

variable {c : Job} {t : SelectorTable}

namespace SelectorTable

/-- Every entry holds the selectors that its text reads as. -/
def IsSound (t : SelectorTable) : Prop :=
  ∀ e ∈ t.entries, Selector.parseList e.text = .ok e.selectors

theorem isSound_empty : IsSound .empty := by
  intro e he
  simp [empty] at he

theorem IsSound.drop (h : t.IsSound) (block rule : Nat) : (t.drop block rule).IsSound :=
  fun e he => h e (List.mem_filter.1 he).1

theorem IsSound.get (h : t.IsSound) (block : Nat) (head : RuleHead) :
    (t.get block head).2.IsSound := by
  simp only [SelectorTable.get]
  split
  · exact h
  split
  · exact h
  rename_i selectors hp
  intro e he
  rcases List.mem_cons.1 he with rfl | he
  · exact hp
  · exact h.drop block head.id e he

theorem get_fst (h : t.IsSound) (block : Nat) (head : RuleHead) :
    (t.get block head).1 = Selector.parseList head.selector := by
  simp only [SelectorTable.get]
  split
  · rename_i e he
    obtain ⟨hf, ht⟩ := Option.filter_eq_some_iff.1 he
    have hmem : e ∈ t.entries := List.mem_of_find?_eq_some hf
    rw [← eq_of_beq ht, h e hmem]
  · split <;> simp_all

end SelectorTable

/-- Whatever sound table it looks into, the visit makes this edit or fails with this error. -/
def Visit.Makes (f : Visit SelectorTable BlockError) (edit : Rule → RuleEdit × Option BlockError) :
    Prop :=
  ∀ r t, t.IsSound → ∃ t', t'.IsSound ∧ f r t = ⟨(edit r).1, t', (edit r).2⟩

theorem Visit.Makes.isSound {f : Visit SelectorTable BlockError}
    {edit : Rule → RuleEdit × Option BlockError} (h : Visit.Makes f edit) (r : Rule)
    (t : SelectorTable) (ht : t.IsSound) : (f r t).state.IsSound := by
  obtain ⟨t', ht', heq⟩ := h r t ht
  rwa [heq]

namespace Job

/-- The selectors of a rule of the block, read from their text. -/
def readSelectors (c : Job) (head : RuleHead) : Except BlockError (List Selector) :=
  (Selector.parseList head.selector).mapError fun e => c.errorIn (.noSelector e) head.location

theorem exists_selectors (c : Job) (h : t.IsSound) (head : RuleHead) :
    ∃ t', t'.IsSound ∧ c.selectors t head = (c.readSelectors head, t') := by
  refine ⟨_, h.get c.block head, ?_⟩
  rw [readSelectors, ← SelectorTable.get_fst h c.block head]
  rfl

def addingEdit (c : Job) (rule : Rule) : RuleEdit × Option BlockError :=
  let head := rule.toRuleHead
  match c.readSelectors head with
  | .error e => (.keep head, some e)
  | .ok selectors => ({ RuleEdit.keep head with before := c.injectionsFor rule selectors }, none)

def compilingEdit (c : Job) (rule : Rule) : RuleEdit × Option BlockError :=
  let head := rule.toRuleHead
  match c.readSelectors head with
  | .error e => (.keep head, some e)
  | .ok selectors =>
    match selectors.mapM (c.catalog.compileSelector c.block) with
    | .error fault => (.keep head, some (c.errorIn (.output fault) head.location))
    | .ok selectors => ({ RuleEdit.keep head with selector := renderSelectors selectors }, none)

theorem makes_addResolutions (c : Job) : Visit.Makes c.addResolutions c.addingEdit := by
  intro r t ht
  obtain ⟨t', ht', hread⟩ := c.exists_selectors ht r.toRuleHead
  simp only [addResolutions, addingEdit, hread]
  cases c.readSelectors r.toRuleHead with
  | error e | ok selectors => exact ⟨t', ht', rfl⟩

theorem makes_compileRule (c : Job) : Visit.Makes c.compileRule c.compilingEdit := by
  intro r t ht
  obtain ⟨t', ht', hread⟩ := c.exists_selectors ht r.toRuleHead
  simp only [compileRule, compilingEdit, hread]
  cases c.readSelectors r.toRuleHead with
  | error e => exact ⟨t', ht', rfl⟩
  | ok selectors =>
    dsimp only
    cases selectors.mapM (c.catalog.compileSelector c.block) with
    | error fault => exact ⟨t', ht', rfl⟩
    | ok compiled => exact ⟨_, ht'.drop _ _, rfl⟩

theorem addResolutions_ok {r : Rule} (ht : t.IsSound) (h : (c.addResolutions r t).error = none) :
    ∃ selectors, Selector.parseList r.selector = .ok selectors ∧ (c.addResolutions r t).result
      = { RuleEdit.keep r.toRuleHead with before := c.injectionsFor r selectors } := by
  obtain ⟨_, -, hmakes⟩ := c.makes_addResolutions r t ht
  simp only [hmakes, addingEdit] at h ⊢
  split at h
  · cases h
  · rename_i selectors hread
    exact ⟨selectors, except_mapError_ok_iff.1 hread, rfl⟩

theorem compileRule_ok {r : Rule} (ht : t.IsSound) (h : (c.compileRule r t).error = none) :
    ∃ selectors compiled, Selector.parseList r.selector = .ok selectors ∧
      selectors.mapM (c.catalog.compileSelector c.block) = .ok compiled ∧ (c.compileRule r t).result
        = { RuleEdit.keep r.toRuleHead with selector := renderSelectors compiled } := by
  obtain ⟨_, -, hmakes⟩ := c.makes_compileRule r t ht
  simp only [hmakes, compilingEdit] at h ⊢
  split at h
  · cases h
  rename_i selectors hread
  split at h
  · cases h
  · rename_i compiled hm
    exact ⟨selectors, compiled, except_mapError_ok_iff.1 hread, hm, rfl⟩

end Job

end StyleBlocks
