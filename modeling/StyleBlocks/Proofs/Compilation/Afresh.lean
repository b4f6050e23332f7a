import StyleBlocks.Proofs.Compilation.Stages

/-!
# Compiling without a table of read selectors

One table of selectors goes through all passes of a compilation.  The compiled stylesheet and the
stylesheets of other blocks have entries in it under the same keys while the former is rewritten, so
it is looked into for other texts than those that its entries were read from.  Nobody sees that.

Main result: `SelectorTable.Reached.transparent`.
-/

namespace StyleBlocks

/-! ## Every selector is read afresh -/

/-- Makes the edits and does not look into the table. -/
def Visit.ofEdit (edit : Rule → RuleEdit × Option BlockError) : Visit SelectorTable BlockError :=
  fun r t => ⟨(edit r).1, t, (edit r).2⟩

namespace Job.Afresh

variable (c : Job)

def settleLevels (rule : Rule) (q : Request) (selectors : List Selector) (own : List Declaration)
    (override : Bool) : Clash → List ObjectId → SettleM (Clash × List Node)
  | found, [] => return (found, [])
  | found, target :: targets => do
    let hits ← rivalsOfRule.liftExcept (c.readRivals target q.declaration.property)
    let (level, nodes) ←
      hits.foldlM (c.settleRival rule q selectors own override) (.noConflict, [])
    let found := found.join level
    if level = .conflict then return (found, nodes)
    let (found, others) ← settleLevels rule q selectors own override found targets
    return (found, nodes ++ others)

def settleRequest (rule : Rule) (selectors : List Selector) (q : Request) :
    SettleM (List Node) := do
  let d := q.declaration
  let own := ownValues rule d.property
  match c.isOverride q own, c.resolutionTarget q with
  | .error e, _ => throw e
  | .ok _, .error e => throw e
  | .ok override, .ok target =>
    let (found, nodes) ← settleLevels c rule q selectors (own.map Prod.snd) override .noConflict
      (c.catalog.lineage target)
    if found = .noConflict && !q.resolution.inherited then
      throw (c.errorIn (.resolveNothing d.property q.resolution.reference) d.location)
    return nodes

def settleRule (rule : Rule) : SettleM (List Node) := do
  match c.requests rule with
  | .error e => throw e
  | .ok [] => return []
  | .ok requests =>
    match c.readSelectors rule.toRuleHead with
    | .error e => throw e
    | .ok selectors =>
      let nodes ← requests.mapM (settleRequest c rule selectors)
      return nodes.flatten

mutual

def settleNode (f : Rule → SettleM (List Node)) (s : SettleState) :
    Node → Walked (List Node) SettleState BlockError
  | .rule head body =>
    match (f ⟨head, body⟩).run s with
    | (.error e, s) => ⟨[.rule head body], s, some e⟩
    | (.ok nodes, s) => ⟨.rule head (body.filter isConcrete) :: nodes.reverse, s, none⟩
  | .group head body =>
    if head.holdsFrames then ⟨[.group head body], s, none⟩
    else
      let inner := settleNodes f s body
      ⟨[.group head inner.result], inner.state, inner.error⟩
  | node => ⟨[node], s, none⟩

def settleNodes (f : Rule → SettleM (List Node)) (s : SettleState) :
    List Node → Walked (List Node) SettleState BlockError
  | [] => ⟨[], s, none⟩
  | node :: nodes =>
    let first := settleNode f s node
    match first.error with
    | some e => ⟨first.result ++ nodes, first.state, some e⟩
    | none =>
      let others := settleNodes f first.state nodes
      ⟨first.result ++ others.result, others.state, others.error⟩

end

def settle : Pass := fun k =>
  let walked := settleNodes (settleRule c) ⟨k.table, k.sheet.nextRule⟩ k.sheet.nodes
  ({ k with
    sheet := { k.sheet with nodes := walked.result, nextRule := walked.state.nextRule } },
    walked.error)

/-- The passes without a table: selectors are read from their texts whenever they are needed. -/
def passes (options : Options) : List Pass :=
  [c.debugStatements, clearPass, .ofVisit (.ofEdit c.addingEdit), .ofVisit (.ofEdit c.compilingEdit),
    settle c] ++ if options.interoperable then [c.exportClasses] else []

end Job.Afresh

/-! ## Passes that do the same -/

/-- The same stylesheet and the same output; the first one's table is sound. -/
structure Compilation.Alike (k k' : Compilation) : Prop where
  sheet : k'.sheet = k.sheet
  printed : k'.printed = k.printed
  table : k.table.IsSound

/-- From the same stylesheet both passes make the same stylesheet, output and error. -/
def Pass.Alike (p p' : Pass) : Prop :=
  ∀ k k' : Compilation, k.Alike k' → (p k).1.Alike (p' k').1 ∧ (p' k').2 = (p k).2

namespace Pass.Alike

variable {p p' : Pass} {ps ps' : List Pass}

theorem sequence (h : List.Forall₂ Pass.Alike ps ps') :
    (Pass.sequence ps).Alike (Pass.sequence ps') := by
  induction h with
  | nil => exact fun _ _ hk => ⟨hk, rfl⟩
  | @cons p p' ps ps' hp _ ih =>
    intro k k' hk
    obtain ⟨hc, he⟩ := hp k k' hk
    rw [Pass.sequence, Pass.sequence]
    rcases hpk : p k with ⟨c, e⟩
    rcases hpk' : p' k' with ⟨c', e'⟩
    rw [hpk, hpk'] at hc he
    cases he
    cases e with
    | some e => exact ⟨hc, rfl⟩
    | none => exact ih c c' hc

theorem ofChange (f : Stylesheet → Stylesheet) : (Pass.ofChange f).Alike (Pass.ofChange f) :=
  fun _ _ hk => ⟨⟨congrArg f hk.sheet, hk.printed, hk.table⟩, rfl⟩

end Pass.Alike

section

variable {f : Visit SelectorTable BlockError} {edit : Rule → RuleEdit × Option BlockError}

theorem Visit.Makes.exists_editNodes (h : Visit.Makes f edit) (nodes : List Node)
    {t : SelectorTable} (ht : t.IsSound) (t₀ : SelectorTable) :
    ∃ t', t'.IsSound ∧
      editNodes f t nodes = { editNodes (.ofEdit edit) t₀ nodes with state := t' } := by
  induction nodes using nodes_induct generalizing t t₀ with
  | nil => exact ⟨t, ht, rfl⟩
  | rule head body l ihbody ih =>
    obtain ⟨t₁, ht₁, hv⟩ := h ⟨head, body⟩ t ht
    simp only [editNodes, editNode, hv, Visit.ofEdit]
    cases (edit ⟨head, body⟩).2 with
    | some e => exact ⟨t₁, ht₁, rfl⟩
    | none =>
      obtain ⟨t₂, ht₂, hbody⟩ := ihbody ht₁ t₀
      simp only [hbody]
      cases (editNodes (.ofEdit edit) t₀ body).error with
      | some e => exact ⟨t₂, ht₂, rfl⟩
      | none =>
        obtain ⟨t₃, ht₃, hl⟩ := ih ht₂ (editNodes (.ofEdit edit) t₀ body).state
        exact ⟨t₃, ht₃, by simp only [hl]⟩
  | group head body l ihbody ih =>
    by_cases hf : head.holdsFrames = true
    · obtain ⟨t₁, ht₁, hl⟩ := ih ht t₀
      exact ⟨t₁, ht₁, by simp only [editNodes, editNode, hf, if_true, hl]⟩
    obtain ⟨t₂, ht₂, hbody⟩ := ihbody ht t₀
    simp only [editNodes, editNode, hf, hbody]
    cases (editNodes (.ofEdit edit) t₀ body).error with
    | some e => exact ⟨t₂, ht₂, rfl⟩
    | none =>
      obtain ⟨t₃, ht₃, hl⟩ := ih ht₂ (editNodes (.ofEdit edit) t₀ body).state
      exact ⟨t₃, ht₃, by simp [hl]⟩
  | statement _ l ih | declaration _ l ih | comment _ _ l ih =>
    obtain ⟨t₁, ht₁, hl⟩ := ih ht t₀
    exact ⟨t₁, ht₁, by simp only [editNodes, editNode, hl]⟩

theorem Pass.Alike.ofVisit (h : Visit.Makes f edit) :
    (Pass.ofVisit f).Alike (Pass.ofVisit (.ofEdit edit)) := by
  intro k k' hk
  obtain ⟨t, ht, hwalked⟩ := h.exists_editNodes k.sheet.nodes hk.table k'.table
  simp only [Pass.ofVisit, Stylesheet.editRules, hk.sheet, hwalked]
  exact ⟨⟨rfl, hk.printed, ht⟩, trivial⟩

end

namespace Job

variable (c : Job)

theorem alike_settleRival (rule : Rule) (q : Request) (selectors : List Selector)
    (own : List Declaration) (override : Bool) (found : Clash × List Node) (m : Rival) :
    Alike SettleState.Alike (c.settleRival rule q selectors own override found m)
      (c.settleRival rule q selectors own override found m) := by
  unfold settleRival
  cases c.mergeRival q selectors own m with
  | error e => exact .throw e
  | ok merged =>
    dsimp only
    split
    · exact .pure _
    · refine Alike.bind (fun s s' hs => ?_) fun node => .pure _
      obtain ⟨t', _⟩ := s'
      cases hs.nextRule
      exact ⟨rfl, hs.table, rfl⟩

theorem alike_settleLevels (rule : Rule) (q : Request) (selectors : List Selector)
    (own : List Declaration) (override : Bool) (targets : List ObjectId) (found : Clash) :
    Alike SettleState.Alike (c.settleLevels rule q selectors own override found targets)
      (Afresh.settleLevels c rule q selectors own override found targets) := by
  induction targets generalizing found with
  | nil => exact .pure _
  | cons x targets ih =>
    refine (c.alike_rivalsFor x _).bind fun hits => ?_
    refine (Alike.foldlM (fun b m _ => c.alike_settleRival rule q selectors own override b m)
      _).bind fun level => ?_
    dsimp only
    split
    · exact .pure _
    · exact (ih _).bind fun others => .pure _

theorem alike_settleRule (rule : Rule) :
    Alike SettleState.Alike (c.settleRule rule) (Afresh.settleRule c rule) := by
  have hrequest : ∀ selectors q, Alike SettleState.Alike (c.settleRequest rule selectors q)
      (Afresh.settleRequest c rule selectors q) := by
    intro selectors q
    unfold settleRequest Afresh.settleRequest
    dsimp only
    cases c.isOverride q (ownValues rule q.declaration.property) with
    | error e => exact .throw e
    | ok override =>
      cases c.resolutionTarget q with
      | error e => exact .throw e
      | ok x =>
        refine (c.alike_settleLevels rule q selectors _ override _ _).bind fun found => ?_
        obtain ⟨found, nodes⟩ := found
        split
        · exact .throw _
        · exact .pure _
  unfold settleRule Afresh.settleRule
  cases c.requests rule with
  | error e => exact .throw e
  | ok requests =>
    cases requests with
    | nil => exact .pure []
    | cons q requests =>
      intro s s' hs
      obtain ⟨t, ht, hread⟩ := c.exists_selectors hs.table rule.toRuleHead
      have hget : (get : SettleM SettleState).run s = (.ok s, s) := rfl
      dsimp only
      rw [run_bind, hget]
      dsimp only
      rw [hread]
      cases c.readSelectors rule.toRuleHead with
      | error e => exact ⟨rfl, ht, hs.nextRule⟩
      | ok selectors =>
        have hrest : Alike SettleState.Alike ((q :: requests).mapM (c.settleRequest rule selectors))
            ((q :: requests).mapM (Afresh.settleRequest c rule selectors)) :=
          .mapM fun q _ => hrequest selectors q
        exact hrest.bind (fun nodes => .pure nodes.flatten) _ _ ⟨ht, hs.nextRule⟩

theorem alike_settleNodes (nodes : List Node) {s s' : SettleState} (hs : s.Alike s') :
    ∃ t, t.Alike (Afresh.settleNodes (Afresh.settleRule c) s' nodes).state ∧ c.settleNodes s nodes
      = { Afresh.settleNodes (Afresh.settleRule c) s' nodes with state := t } := by
  induction nodes using nodes_induct generalizing s s' with
  | nil => exact ⟨s, hs, rfl⟩
  | rule head body l _ ih =>
    obtain ⟨hresult, hstate⟩ := c.alike_settleRule ⟨head, body⟩ s s' hs
    simp only [settleNodes, settleNode, Afresh.settleNodes, Afresh.settleNode]
    generalize (c.settleRule ⟨head, body⟩).run s = out at hresult hstate ⊢
    generalize (Afresh.settleRule c ⟨head, body⟩).run s' = out' at hresult hstate ⊢
    obtain ⟨found, s₁⟩ := out
    obtain ⟨found', s₁'⟩ := out'
    cases hresult
    cases found with
    | error e => exact ⟨s₁, hstate, rfl⟩
    | ok nodes =>
      obtain ⟨t, ht, hl⟩ := ih hstate
      exact ⟨t, ht, by simp only [hl]⟩
  | group head body l ihbody ih =>
    by_cases hf : head.holdsFrames = true
    · simp only [settleNodes, settleNode, Afresh.settleNodes, Afresh.settleNode, hf, if_true]
      obtain ⟨t, ht, hl⟩ := ih hs
      exact ⟨t, ht, by simp only [hl]⟩
    obtain ⟨s₁, hs₁, hbody⟩ := ihbody hs
    simp only [settleNodes, settleNode, Afresh.settleNodes, Afresh.settleNode, hf, hbody]
    cases (Afresh.settleNodes (Afresh.settleRule c) s' body).error with
    | some e => exact ⟨s₁, hs₁, rfl⟩
    | none =>
      obtain ⟨t, ht, hl⟩ := ih hs₁
      exact ⟨t, ht, by simp [hl]⟩
  | statement _ l ih | declaration _ l ih | comment _ _ l ih =>
    obtain ⟨t, ht, hl⟩ := ih hs
    refine ⟨t, ?_, ?_⟩ <;>
      simp only [settleNodes, settleNode, Afresh.settleNodes, Afresh.settleNode, hl]
    exact ht

theorem alike_settle : c.settle.Alike (Afresh.settle c) := by
  intro k k' hk
  have hs : SettleState.Alike ⟨k.table, k.sheet.nextRule⟩ ⟨k'.table, k.sheet.nextRule⟩ :=
    ⟨hk.table, rfl⟩
  obtain ⟨t, ht, hwalked⟩ := c.alike_settleNodes k.sheet.nodes hs
  simp only [settle, Afresh.settle, hk.sheet, hwalked, ht.nextRule]
  exact ⟨⟨rfl, hk.printed, ht.table⟩, trivial⟩

theorem alike_passes (options : Options) :
    (Pass.sequence (passes c options)).Alike (Pass.sequence (Afresh.passes c options)) := by
  have hdebug : c.debugStatements.Alike c.debugStatements := by
    intro k k' hk
    rw [debugStatements, debugStatements, hk.sheet, hk.printed]
    exact ⟨⟨rfl, rfl, hk.table⟩, rfl⟩
  refine .sequence (.cons hdebug (.cons (.ofChange _) (.cons (.ofVisit c.makes_addResolutions)
    (.cons (.ofVisit c.makes_compileRule) (.cons c.alike_settle ?_)))))
  split
  · exact .cons (.ofChange _) .nil
  · exact .nil

end Job

/-! ## Tables in use -/

/-- Compiles with a table that may have been used before. -/
def compileWith (t : SelectorTable) (g : Catalog) (options : Options) (n : Nat) (sheet : Stylesheet) :
    Compilation × Option BlockError :=
  Pass.sequence (passes (g.job n sheet) options) { sheet := sheet, table := t }

/-- Compiles with every selector read from its text. -/
def compileAfresh (g : Catalog) (options : Options) (n : Nat) (sheet : Stylesheet) :
    Compilation × Option BlockError :=
  Pass.sequence (Job.Afresh.passes (g.job n sheet) options) { sheet := sheet }

/-- What is seen of a compilation: the stylesheet, what was printed, and the error. -/
def outcome (k : Compilation × Option BlockError) : Stylesheet × Printed × Option BlockError :=
  (k.1.sheet, k.1.printed, k.2)

theorem alike_compileWith {t : SelectorTable} (ht : t.IsSound) (g : Catalog) (options : Options)
    (n : Nat) (sheet : Stylesheet) : (compileWith t g options n sheet).1.table.IsSound ∧
      outcome (compileWith t g options n sheet) = outcome (compileAfresh g options n sheet) := by
  obtain ⟨hk, herror⟩ := (g.job n sheet).alike_passes options { sheet := sheet, table := t }
    { sheet := sheet } ⟨rfl, rfl, ht⟩
  exact ⟨hk.table, Prod.ext hk.sheet.symm (Prod.ext hk.printed.symm herror.symm)⟩

theorem outcome_compile (g : Catalog) (options : Options) (n : Nat) (sheet : Stylesheet) :
    outcome (compile g options n sheet) = outcome (compileAfresh g options n sheet) :=
  (alike_compileWith SelectorTable.isSound_empty g options n sheet).2

namespace SelectorTable

/-- The tables that come about when one table is used again and again, for rules of any blocks with
any numbers and texts. -/
inductive Reached : SelectorTable → Prop
  | empty : Reached .empty
  | get {t : SelectorTable} (h : t.Reached) (block : Nat) (head : RuleHead) :
    Reached (t.get block head).2
  | drop {t : SelectorTable} (h : t.Reached) (block rule : Nat) : Reached (t.drop block rule)
  | compiled {t : SelectorTable} (h : t.Reached) (g : Catalog) (options : Options) (n : Nat)
    (sheet : Stylesheet) : Reached (compileWith t g options n sheet).1.table

namespace Reached

variable {t : SelectorTable}

theorem isSound (h : t.Reached) : t.IsSound := by
  induction h with
  | empty => exact isSound_empty
  | get _ block head ih => exact ih.get block head
  | drop _ block rule ih => exact ih.drop block rule
  | compiled _ g options n sheet ih => exact (alike_compileWith ih g options n sheet).1

/-- **Nobody sees the table.**  However it was used before, a look-up gives what the text of the rule
reads as, one that fails leaves the table as it was, and a compilation is what it is without any
table. -/
theorem transparent (h : t.Reached) :
    (∀ block head, (t.get block head).1 = Selector.parseList head.selector ∧
      ∀ e, Selector.parseList head.selector = .error e → t.get block head = (.error e, t)) ∧
    ∀ g options n sheet,
      outcome (compileWith t g options n sheet) = outcome (compileAfresh g options n sheet) ∧
      outcome (compile g options n sheet) = outcome (compileAfresh g options n sheet) := by
  refine ⟨fun block head => ⟨get_fst h.isSound block head, fun e he => ?_⟩, fun g options n sheet =>
    ⟨(alike_compileWith h.isSound g options n sheet).2, outcome_compile g options n sheet⟩⟩
  have hfst := get_fst h.isSound block head
  unfold SelectorTable.get at hfst ⊢
  dsimp only at hfst ⊢
  split
  · rename_i e' he'
    rw [he', he] at hfst
    cases hfst
  · rw [he]

/-- A table with an entry for the first rule of the first block. -/
def oneEntry : SelectorTable :=
  (SelectorTable.empty.get 0 ⟨0, ".a", .nowhere⟩).2

theorem transparent_oneEntry : oneEntry.length = 1 ∧
    (oneEntry.get 0 ⟨0, ".b > .c", .nowhere⟩).1 = Selector.parseList ".b > .c" ∧
    (∃ e, Selector.parseList ".b >" = .error e ∧
      oneEntry.get 0 ⟨0, ".b >", .nowhere⟩ = (.error e, oneEntry)) ∧
    ∀ g options n sheet,
      outcome (compileWith oneEntry g options n sheet) = outcome (compileAfresh g options n sheet) := by
  have hreached : oneEntry.Reached := .get .empty 0 ⟨0, ".a", .nowhere⟩
  have hfails : (Selector.parseList ".b >").toOption = none := by decide +kernel
  refine ⟨by decide +kernel, ((transparent hreached).1 0 _).1, ?_, fun g options n sheet =>
    ((transparent hreached).2 g options n sheet).1⟩
  cases he : Selector.parseList ".b >" with
  | error e => exact ⟨e, rfl, ((transparent hreached).1 0 _).2 e he⟩
  | ok selectors => simp [he, Except.toOption] at hfails

end Reached

end SelectorTable

end StyleBlocks
