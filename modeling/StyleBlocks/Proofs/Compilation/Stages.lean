import StyleBlocks.Proofs.Compilation.Emissions
import StyleBlocks.Proofs.Stylesheet.Places

/-!
# The passes of a compilation that succeeds

Main result: `Job.settlesUnder_settleNodes`.
-/

namespace StyleBlocks

open List SelectorTable RuleEdit

variable {g : Catalog} {k : Compilation} {n : Nat} {nodes : List Node} {options : Options}
  {pass : Pass} {s : Session} {sheet : Stylesheet} {target : ObjectId} {m : Rival}
  {property : String} {conditions : List AtHead}

/-! ## Debug statements and the block language -/

theorem clearNodes_append (l₁ l₂ : List Node) :
    clearNodes (l₁ ++ l₂) = clearNodes l₁ ++ clearNodes l₂ := by
  induction l₁ with
  | nil => simp [clearNodes]
  | cons node l₁ ih => simp [clearNodes, ih]

theorem clearNode_of_debugHead? {node : Node} {head : AtHead}
    (h : Job.debugHead? node = some head) :
    clearNode node = [] := by
  have hlanguage : languageAtRules.contains "block-debug" = true := by decide
  unfold Job.debugHead? at h
  split at h
  · split at h
    · rename_i hname
      rw [clearNode, hname, if_pos hlanguage]
    · cases h
  · split at h
    · rename_i hname
      rw [clearNode, hname, if_pos hlanguage]
    · cases h
  · cases h

theorem rulesAt_debugNodes (c : Job) (site : Site) (printed : Printed) (nodes : List Node) :
    rulesAt site (clearNodes (c.debugNodes printed nodes).result)
      = rulesAt site (clearNodes nodes) := by
  induction nodes generalizing printed with
  | nil => rfl
  | cons node nodes ih =>
    rw [Job.debugNodes]
    split
    · simp only [clearNodes, rulesAt_append, ih]
    rename_i head hhead
    split
    · rfl
    rename_i left printed' hrun
    have hleft : rulesAt site (clearNodes left) = [] := by
      obtain ⟨⟨n, channel⟩, -, hrun⟩ := except_bind_ok hrun
      dsimp only at hrun
      split at hrun <;> cases hrun <;> rfl
    rw [clearNodes_append, rulesAt_append, hleft, ih, clearNodes, rulesAt_append,
      clearNode_of_debugHead? hhead]
    rfl

theorem placedRules_debugNodes (c : Job) (inside : Bool) (printed : Printed) (nodes : List Node) :
    placedRules inside (clearNodes (c.debugNodes printed nodes).result)
      = placedRules inside (clearNodes nodes) := by
  rw [← (map_rulesAt ⟨[], inside⟩ _).1, rulesAt_debugNodes, (map_rulesAt ⟨[], inside⟩ _).1]

/-- What is left of a rule: the same head, and its declarations that are not of the block
language. -/
structure ClearedTo (a b : Site × Rule) : Prop where
  site : a.1 = b.1
  head : b.2.toRuleHead = a.2.toRuleHead
  declarations : b.2.declarations
    = a.2.declarations.filter fun d => !languageProperties.contains d.property

theorem filterMap_clearNodes (nodes : List Node) :
    (clearNodes nodes).filterMap Node.declaration? = nodes.filterMap Node.declaration? := by
  induction nodes with
  | nil => rfl
  | cons node nodes ih =>
    have hnode : (clearNode node).filterMap Node.declaration?
        = [node].filterMap Node.declaration? := by
      cases node with
      | rule head body =>
        rw [clearNode, clearRule]
        split <;> rfl
      | group head body | statement head =>
        rw [clearNode]
        split <;> rfl
      | declaration d | comment text location => rfl
    rw [clearNodes, filterMap_append, ih, hnode, ← filterMap_append]
    rfl

theorem filterMap_filter_isBlockDeclaration (nodes : List Node) :
    (nodes.filter (!·.isBlockDeclaration)).filterMap Node.declaration?
      = (nodes.filterMap Node.declaration?).filter
        fun d => !languageProperties.contains d.property :=
  filterMap_filter_declarations (fun _ => rfl) nodes

mutual

theorem exists_cleared_of_node (site : Site) : (node : Node) →
    ∃ l, l.Sublist (rulesAtNode site node) ∧
      Forall₂ ClearedTo l (rulesAt site (clearNode node))
  | .rule head body => by
    obtain ⟨l, hl, hcleared⟩ := exists_cleared { site with inside := true } body
    rw [clearNode, clearRule]
    split
    · exact ⟨[], nil_sublist _, .nil⟩
    refine ⟨(site, ⟨head, body⟩) :: l, hl.cons_cons _, ?_⟩
    rw [rulesAt, rulesAt, append_nil, rulesAtNode]
    refine .cons ⟨rfl, rfl, ?_⟩ ?_
    · rw [Rule.declarations, filterMap_filter_isBlockDeclaration, filterMap_clearNodes]
      rfl
    rwa [rulesAt_filter]
    intro node _ hnode
    cases node with
    | declaration d => rfl
    | _ => cases hnode
  | .group head body => by
    obtain ⟨l, hl, hcleared⟩ :=
      exists_cleared { site with conditions := site.conditions ++ [head] } body
    rw [clearNode]
    by_cases hlanguage : languageAtRules.contains head.name = true
    · rw [if_pos hlanguage]
      exact ⟨[], nil_sublist _, .nil⟩
    rw [if_neg hlanguage, rulesAt, rulesAt, append_nil, rulesAtNode, rulesAtNode]
    split
    · exact ⟨[], nil_sublist _, .nil⟩
    · exact ⟨l, hl, hcleared⟩
  | .statement head => by
    rw [clearNode]
    split <;> exact ⟨[], nil_sublist _, .nil⟩
  | .declaration _ | .comment .. => ⟨[], nil_sublist _, .nil⟩

/-- **The rules that are left** are some of the rules, in their order and in their sites. -/
theorem exists_cleared (site : Site) : (nodes : List Node) →
    ∃ l, l.Sublist (rulesAt site nodes) ∧
      Forall₂ ClearedTo l (rulesAt site (clearNodes nodes))
  | [] => ⟨[], nil_sublist _, .nil⟩
  | node :: nodes => by
    obtain ⟨l₁, hl₁, h₁⟩ := exists_cleared_of_node site node
    obtain ⟨l₂, hl₂, h₂⟩ := exists_cleared site nodes
    rw [clearNodes, rulesAt_append, rulesAt]
    exact ⟨l₁ ++ l₂, hl₁.append hl₂, rel_append h₁ h₂⟩

end

theorem exists_of_mem_clearNodes {r : Rule} (h : r ∈ rulesOf (clearNodes nodes)) :
    ∃ r₀ ∈ rulesOf nodes, r.toRuleHead = r₀.toRuleHead ∧ r.declarations
      = r₀.declarations.filter fun d => !languageProperties.contains d.property := by
  obtain ⟨site, hr⟩ := (mem_rulesOf_iff_rulesAt ⟨[], false⟩).1 h
  obtain ⟨l, hl, hcleared⟩ := exists_cleared ⟨[], false⟩ nodes
  obtain ⟨a, ha, hto⟩ := exists_left_of_forall₂ hcleared hr
  exact ⟨a.2, (mem_rulesOf_iff_rulesAt _).2 ⟨a.1, hl.subset ha⟩, hto.head, hto.declarations⟩

/-! ## The passes -/

theorem Pass.sequence_cons_ok {passes : List Pass} {k' : Compilation}
    (h : Pass.sequence (pass :: passes) k = (k', none)) :
    (pass k).2 = none ∧ Pass.sequence passes (pass k).1 = (k', none) := by
  rw [Pass.sequence] at h
  rcases hp : pass k with ⟨k₁, _ | e⟩ <;> rw [hp] at h
  · exact ⟨rfl, h⟩
  · cases h

theorem Pass.sequence_cons_of_ok {passes : List Pass} (h : (pass k).2 = none) :
    Pass.sequence (pass :: passes) k = Pass.sequence passes (pass k).1 := by
  rw [Pass.sequence]
  rcases hp : pass k with ⟨k₁, _ | e⟩ <;> rw [hp] at h
  cases h

def Catalog.job (g : Catalog) (n : Nat) (sheet : Stylesheet) : Job :=
  ⟨g, n, sheet.filename <|> some (g.block n).identifier⟩

namespace Job

variable {c : Job} {r r' : Rule}

theorem injected_of_visited (h : VisitedTo c.addResolutions IsSound r r') :
    ∃ selectors, Selector.parseList r.selector = .ok selectors ∧ r'.toRuleHead = r.toRuleHead ∧
      r'.declarations = c.injectionsFor r selectors ++ r.declarations ∧
      (rulesOf r.body = [] →
        r'.body = (c.injectionsFor r selectors).map .declaration ++ r.body) := by
  obtain ⟨table, htable, herror, hhead, hdecls, hbody⟩ := h
  obtain ⟨selectors, hparse, hedit⟩ := addResolutions_ok htable herror
  rw [hedit] at hhead hdecls hbody
  refine ⟨selectors, hparse, hhead, ?_, fun hr => ?_⟩
  · simpa [applyDeclarations, keep] using hdecls
  · rw [hbody hr, applyBody_of_change_eq_id _ rfl]
    exact append_nil _

theorem compiled_of_visited (h : VisitedTo c.compileRule IsSound r r') :
    ∃ selectors compiled, Selector.parseList r.selector = .ok selectors ∧
      selectors.mapM (c.catalog.compileSelector c.block) = .ok compiled ∧
      r'.selector = renderSelectors compiled ∧ r'.declarations = r.declarations ∧
      (rulesOf r.body = [] → r'.body = r.body) := by
  obtain ⟨table, htable, herror, hhead, hdecls, hbody⟩ := h
  obtain ⟨selectors, compiled, hparse, hm, hedit⟩ := compileRule_ok htable herror
  rw [hedit] at hhead hdecls hbody
  refine ⟨selectors, compiled, hparse, hm, congrArg RuleHead.selector hhead, ?_, fun hr => ?_⟩
  · simpa [applyDeclarations, keep] using hdecls
  · rw [hbody hr, applyBody_of_change_eq_id _ rfl]
    exact append_nil _

end Job

def exportNodes (c : Job) (options : Options) (number : Nat) : List Node :=
  if options.interoperable then
    [.rule ⟨number, ":export", .nowhere⟩
      (((ClassIndex.ofBlock c.catalog c.block).entries.map IndexEntry.toDeclaration).map
        .declaration)]
  else []

/-- What the two walks make of a rule: it gets the resolutions that it needs, and a selector that is
written with output classes. -/
structure Job.CompiledTo (c : Job) (r r' : Rule) (selectors compiled : List Selector) : Prop where
  parse : Selector.parseList r.selector = .ok selectors
  compile : selectors.mapM (c.catalog.compileSelector c.block) = .ok compiled
  selector : r'.selector = renderSelectors compiled
  declarations : r'.declarations = c.injectionsFor r selectors ++ r.declarations
  body : rulesOf r.body = [] → r'.body = (c.injectionsFor r selectors).map .declaration ++ r.body

theorem Job.compiledTo_of_visited {c : Job} {r r₁ r₂ : Rule}
    (h₁ : VisitedTo c.addResolutions IsSound r r₁)
    (h₂ : VisitedTo c.compileRule IsSound r₁ r₂) :
    ∃ selectors compiled, c.CompiledTo r r₂ selectors compiled := by
  obtain ⟨selectors, hparse, hhead, hdecls, hbody⟩ := injected_of_visited h₁
  obtain ⟨selectors', compiled, hparse', hm, hselector, hdecls', hbody'⟩ := compiled_of_visited h₂
  rw [hhead, hparse] at hparse'
  obtain rfl : selectors = selectors' := Except.ok.inj hparse'
  refine ⟨selectors, compiled, hparse, hm, hselector, hdecls'.trans hdecls, fun hr => ?_⟩
  have hr₁ : rulesOf r₁.body = [] := by
    rw [hbody hr, rulesOf_append, hr, rulesOf_declarations]
    rfl
  rw [hbody' hr₁, hbody hr]

theorem Job.walks_ok {c : Job} (h₁ : (editNodes c.addResolutions .empty nodes).error = none)
    (h₂ : (editNodes c.compileRule (editNodes c.addResolutions .empty nodes).state
      (editNodes c.addResolutions .empty nodes).result).error = none) :
    (editNodes c.compileRule (editNodes c.addResolutions .empty nodes).state
      (editNodes c.addResolutions .empty nodes).result).state.IsSound ∧
    Forall₂ (fun a b => a.1 = b.1 ∧ ∃ selectors compiled,
        c.CompiledTo a.2 b.2 selectors compiled)
      (rulesAt ⟨[], false⟩ nodes)
      (rulesAt ⟨[], false⟩ (editNodes c.compileRule (editNodes c.addResolutions .empty nodes).state
        (editNodes c.addResolutions .empty nodes).result).result) := by
  obtain ⟨hsound₁, hwalk₁⟩ := (walks_editNodes h₁).forall₂_rulesAt
    c.makes_addResolutions.isSound isSound_empty ⟨[], false⟩
  obtain ⟨hsound₂, hwalk₂⟩ := (walks_editNodes h₂).forall₂_rulesAt
    c.makes_compileRule.isSound hsound₁ ⟨[], false⟩
  refine ⟨hsound₂, (forall₂_comp hwalk₁ hwalk₂).imp ?_⟩
  rintro a b ⟨m, ⟨hp₁, hv₁⟩, hp₂, hv₂⟩
  exact ⟨hp₁.trans hp₂, compiledTo_of_visited hv₁ hv₂⟩

/-- **The walks of a compilation that succeeds**: resolutions are put into every rule that is left
of the stylesheet, every selector is written with output classes, and what comes of that is
settled. -/
theorem sited_compile_ok (h : compile g options n sheet = (k, none)) :
    ∃ (k₄ : Compilation) (state : SettleState),
      Pass.sequence ((passes (g.job n sheet) options).take 4) { sheet := sheet } = (k₄, none) ∧
      Forall₂ (fun a b => a.1 = b.1 ∧ ∃ selectors compiled,
          (g.job n sheet).CompiledTo a.2 b.2 selectors compiled)
        (rulesAt ⟨[], false⟩ (clearNodes sheet.nodes)) (rulesAt ⟨[], false⟩ k₄.sheet.nodes) ∧
      state.table.IsSound ∧ ((g.job n sheet).settleNodes state k₄.sheet.nodes).error = none ∧
      ∃ number, k.sheet.nodes = ((g.job n sheet).settleNodes state k₄.sheet.nodes).result
        ++ exportNodes (g.job n sheet) options number := by
  set c := g.job n sheet with hc
  change Pass.sequence (passes c options) { sheet := sheet } = (k, none) at h
  obtain ⟨hdebug, h⟩ := Pass.sequence_cons_ok h
  obtain ⟨hclear, h⟩ := Pass.sequence_cons_ok h
  obtain ⟨hinjected, h⟩ := Pass.sequence_cons_ok h
  obtain ⟨hcompiled, h⟩ := Pass.sequence_cons_ok h
  obtain ⟨hsettled, h⟩ := Pass.sequence_cons_ok h
  obtain ⟨hsound, hwalk⟩ := Job.walks_ok hinjected hcompiled
  refine ⟨(c.compileSelectors (c.settleInherited (clearPass
    (c.debugStatements { sheet := sheet }).1).1).1).1, ⟨_, sheet.nextRule⟩, ?_, ?_, hsound, hsettled,
    ?_⟩
  · show Pass.sequence [c.debugStatements, clearPass, c.settleInherited, c.compileSelectors] _ = _
    rw [Pass.sequence_cons_of_ok hdebug, Pass.sequence_cons_of_ok hclear,
      Pass.sequence_cons_of_ok hinjected, Pass.sequence_cons_of_ok hcompiled]
    rfl
  · rw [← rulesAt_debugNodes c ⟨[], false⟩ {}]
    exact hwalk
  unfold exportNodes
  split at h
  · rename_i hexport
    cases h
    simp only [if_pos hexport, map_map]
    exact ⟨_, rfl⟩
  rename_i hexport
  cases h
  simp only [if_neg hexport]
  exact ⟨0, (append_nil _).symm⟩

theorem compile_ok (h : compile g options n sheet = (k, none)) :
    ∃ (compiled : List Node) (state : SettleState),
      Forall₂ (fun a b => a.1 = b.1 ∧ ∃ selectors compiled,
          (g.job n sheet).CompiledTo a.2 b.2 selectors compiled)
        (placedRules false (clearNodes sheet.nodes)) (placedRules false compiled) ∧
      state.table.IsSound ∧ ((g.job n sheet).settleNodes state compiled).error = none ∧
      ∃ number, k.sheet.nodes = ((g.job n sheet).settleNodes state compiled).result
        ++ exportNodes (g.job n sheet) options number := by
  obtain ⟨k₄, state, -, hwalk, hrest⟩ := sited_compile_ok h
  refine ⟨k₄.sheet.nodes, state, ?_, hrest⟩
  exact forall₂_placedRules
    (R := fun r r' => ∃ selectors written, (g.job n sheet).CompiledTo r r' selectors written) hwalk

theorem Session.compile_eq_ok {out : Stylesheet} (h : (s.compile n).1 = .ok out) :
    ∃ sheet k, (s.catalog.block n).stylesheet = some sheet ∧
      StyleBlocks.compile s.catalog s.library.options n sheet = (k, none) ∧ k.sheet = out := by
  unfold Session.compile compileLoaded at h
  split at h
  · cases h
  rename_i sheet hsheet
  rcases hk : StyleBlocks.compile s.catalog s.library.options n sheet with ⟨k, _ | e⟩ <;>
    simp only [hk] at h
  · cases h
    exact ⟨sheet, k, hsheet, hk, rfl⟩
  · cases h

theorem Session.exists_of_compile {out : Stylesheet}
    (hsheet : (s.catalog.block n).stylesheet = some sheet) (h : (s.compile n).1 = .ok out) :
    ∃ k, StyleBlocks.compile s.catalog s.library.options n sheet = (k, none) ∧ k.sheet = out := by
  obtain ⟨sheet', k, hsheet', hk⟩ := compile_eq_ok h
  obtain rfl := Option.some.inj (hsheet.symm.trans hsheet')
  exact ⟨k, hk⟩

theorem Session.exists_of_compile_any {p : Stylesheet → Bool}
    (h : (s.compile n).1.toOption.any p = true) :
    ∃ sheet out, (s.catalog.block n).stylesheet = some sheet ∧ (s.compile n).1 = .ok out ∧
      p out = true := by
  rcases hc : (s.compile n).1 with e | out
  · rw [hc] at h
    cases h
  · rw [hc] at h
    obtain ⟨sheet, -, hsheet, -⟩ := compile_eq_ok hc
    exact ⟨sheet, out, hsheet, rfl, h⟩

/-! ## Settling -/

namespace Emission

def IsRule (e : Emission) (r : Rule) : Prop :=
  ∃ number place settled, r = e.toRule number place settled

theorem declarations_toRule (e : Emission) (number : Nat) (place settled : Location) :
    (e.toRule number place settled).declarations
      = e.values.map fun d => { d with location := settled } := by
  rw [Rule.declarations, ← filterMap_declarations (e.values.map _), map_map]
  rfl

theorem rulesOf_toRule (e : Emission) (number : Nat) (place settled : Location) :
    rulesOf (e.toRule number place settled).body = [] := by
  have := rulesOf_declarations (e.values.map fun d => { d with location := settled })
  rwa [map_map] at this

theorem nestedRules_wrapIn (h : ∀ a ∈ conditions, a.holdsFrames = false) (node : Node) :
    nestedRules [wrapIn conditions node] = nestedRules [node] := by
  induction conditions with
  | nil => rfl
  | cons a conditions ih =>
    change nestedRules [.group a [wrapIn conditions node]] = _
    rw [nestedRules_group, h a (by simp), ih fun b hb => h b (by simp [hb])]
    rfl

theorem outerRulesUnder_wrapIn (h : ∀ a ∈ conditions, a.holdsFrames = false) (outer : List AtHead)
    (node : Node) :
    outerRulesUnder outer [wrapIn conditions node]
      = outerRulesUnder (outer ++ conditions) [node] := by
  induction conditions generalizing outer with
  | nil => rw [append_nil]; rfl
  | cons a conditions ih =>
    change outerRulesUnder outer [.group a [wrapIn conditions node]] = _
    rw [outerRulesUnder_group, h a (by simp), ih (fun b hb => h b (by simp [hb])), append_assoc]
    rfl

end Emission

theorem holdsFrames_of_mem_rulesUnder (hc : ∀ a ∈ conditions, a.holdsFrames = false)
    (nodes : List Node) : ∀ r ∈ rulesUnder conditions nodes, ∀ a ∈ r.1, a.holdsFrames = false := by
  intro r hr
  induction nodes using nodes_induct generalizing conditions with
  | nil => cases hr
  | rule head body l ihbody ih =>
    rcases mem_cons.1 hr with rfl | hr
    · exact hc
    · exact (mem_append.1 hr).elim (ihbody hc) (ih hc)
  | group head body l ihbody ih =>
    rw [rulesUnder, rulesUnderNode] at hr
    split at hr
    · exact ih hc hr
    · rename_i hf
      refine (mem_append.1 hr).elim (ihbody (forall_mem_append.2 ⟨hc, ?_⟩)) (ih hc)
      simpa using hf
  | statement _ _ ih | declaration _ _ ih | comment _ _ _ ih => exact ih hc hr

/-- Its values ask for nothing any more, and it does not stand in `@keyframes`. -/
structure Emission.IsConcrete (e : Emission) : Prop where
  conditions : ∀ a ∈ e.conditions, a.holdsFrames = false
  values : ∀ d ∈ e.values, d.asksResolution = false

namespace Job

variable {c : Job} {rule : Rule}

theorem rivalOf?_eq_some {values : List Declaration} {s : Selector}
    (h : c.rivalOf? target conditions rule values s = .ok (some m)) :
    m.values = values ∧ m.conditions = conditions.map fun a => { a with location := .nowhere } := by
  unfold rivalOf? at h
  dsimp only at h
  split at h
  · cases h
  split at h
  · cases h
  · split at h <;> cases h
    exact ⟨rfl, rfl⟩

theorem of_mem_rivalsIn {r : List AtHead × Rule} (h : m ∈ c.rivalsIn target property r) :
    m.values = valuesFor r.2 property ∧
      m.conditions = r.1.map fun a => { a with location := .nowhere } := by
  unfold rivalsIn at h
  split at h
  · cases h
  split at h
  · cases h
  obtain ⟨s, -, hs⟩ := mem_filterMap.1 h
  rcases hx : c.rivalOf? target r.1 r.2 (valuesFor r.2 property) s with e | o
  · simp [hx, Except.toOption] at hs
  · simp only [hx, Except.toOption, Option.join_some] at hs
    exact rivalOf?_eq_some (hs ▸ hx)

theorem mem_rivals (h : m ∈ c.rivals target property) :
    (∀ a ∈ m.conditions, a.holdsFrames = false) ∧ ∀ d ∈ m.values, d.asksResolution = false := by
  unfold rivals at h
  split at h
  · cases h
  rename_i sheet _
  obtain ⟨r, hr, hm⟩ := mem_flatMap.1 h
  obtain ⟨hvalues, hconditions⟩ := of_mem_rivalsIn hm
  rw [hvalues, hconditions]
  refine ⟨fun a ha => ?_, fun d hd => ?_⟩
  · obtain ⟨b, hb, rfl⟩ := mem_map.1 ha
    exact holdsFrames_of_mem_rulesUnder (by simp) sheet.nodes r hr b hb
  · have hconcrete := (mem_filter.1 hd).2
    simp only [Bool.and_eq_true, Bool.not_eq_true'] at hconcrete
    exact hconcrete.2

theorem mem_emissionsAlong {q : Request} {selectors : List Selector} {own : List Declaration}
    {override : Bool} (hown : ∀ d ∈ own, d.asksResolution = false) {targets : List ObjectId}
    {e : Emission} (h : e ∈ c.emissionsAlong q selectors own override targets) :
    e.IsConcrete := by
  rw [emissionsAlong_eq] at h
  obtain ⟨target, -, h⟩ := mem_flatMap.1 h
  obtain ⟨m, hm, he⟩ := mem_filterMap.1 h
  obtain ⟨hconditions, hvalues⟩ := mem_rivals hm
  obtain ⟨hconditions', hvalues'⟩ := of_emission? he
  refine ⟨hconditions' ▸ hconditions, ?_⟩
  rw [hvalues']
  cases override
  · exact hown
  · exact hvalues

theorem asksResolution_of_mem_ownValues {o : Nat × Declaration} (h : o ∈ ownValues rule property) :
    o.2.asksResolution = false := by
  obtain ⟨⟨node, i⟩, -, h⟩ := mem_filterMap.1 h
  dsimp only at h
  split at h
  · split at h
    · rename_i hd
      cases h
      simp only [Bool.and_eq_true, Bool.not_eq_true'] at hd
      exact hd.2
    · cases h
  · cases h

theorem mem_emissionsOf {e : Emission} (h : e ∈ c.emissionsOf rule) : e.IsConcrete := by
  unfold emissionsOf at h
  split at h
  · obtain ⟨q, -, h⟩ := mem_flatMap.1 h
    unfold emissionsFor at h
    dsimp only at h
    split at h
    · refine mem_emissionsAlong (fun d hd => ?_) h
      obtain ⟨o, ho, rfl⟩ := mem_map.1 hd
      exact asksResolution_of_mem_ownValues ho
    · cases h
  · cases h

theorem declarations_filter_isConcrete (head : RuleHead) (body : List Node) :
    (⟨head, body.filter isConcrete⟩ : Rule).declarations
      = (⟨head, body⟩ : Rule).declarations.filter fun d => !d.asksResolution :=
  filterMap_filter_declarations (fun _ => rfl) body

theorem rulesAt_filter_isConcrete (site : Site) (body : List Node) :
    rulesAt site (body.filter isConcrete) = rulesAt site body := by
  refine rulesAt_filter site fun node _ h => ?_
  cases node with
  | declaration d => rfl
  | _ => cases h

theorem rulesOf_filter_isConcrete (body : List Node) :
    rulesOf (body.filter isConcrete) = rulesOf body := by
  rw [← map_snd_rulesAt ⟨[], false⟩, rulesAt_filter_isConcrete, map_snd_rulesAt]

/-- What settling makes of a rule that stands in no other one, with the at-rules around it.  What
the rule emits stands in the same at-rules, and in those of the emission. -/
def SettledUnder (c : Job) (a : List AtHead × Rule) (l : List (List AtHead × Rule)) : Prop :=
  ∃ emitted, List.Forall₂ (fun e b => b.1 = a.1 ++ e.conditions ∧ e.IsRule b.2)
      (c.emissionsOf a.2) emitted ∧
    l = (a.1, ⟨a.2.toRuleHead, a.2.body.filter isConcrete⟩) :: emitted.reverse

def SettledTo (c : Job) (r : Rule) (l : List Rule) : Prop :=
  ∃ emitted, List.Forall₂ Emission.IsRule (c.emissionsOf r) emitted ∧
    l = ⟨r.toRuleHead, r.body.filter isConcrete⟩ :: emitted.reverse

theorem SettledUnder.settledTo {a : List AtHead × Rule} {l : List (List AtHead × Rule)}
    (h : c.SettledUnder a l) : c.SettledTo a.2 (l.map Prod.snd) := by
  obtain ⟨emitted, hemitted, rfl⟩ := h
  refine ⟨emitted.map Prod.snd, ?_, by simp⟩
  rw [forall₂_map_right_iff]
  exact hemitted.imp fun e b hb => hb.2

theorem outerRulesUnder_emitted {es : List Emission} (h : Forall₂ (Emission.IsNode n) es nodes)
    (hes : ∀ e ∈ es, e.IsConcrete) (conditions : List AtHead) :
    nestedRules nodes.reverse = [] ∧
      ∃ emitted,
        Forall₂ (fun e b => b.1 = conditions ++ e.conditions ∧ e.IsRule b.2) es emitted ∧
        outerRulesUnder conditions nodes.reverse = emitted.reverse := by
  induction h with
  | nil => exact ⟨rfl, [], .nil, rfl⟩
  | @cons e node es nodes he _ ih =>
    obtain ⟨hnested, emitted, hemitted, houter⟩ := ih fun e' he' => hes e' (by simp [he'])
    obtain ⟨number, place, settled, -, rfl⟩ := he
    have hframes := (hes e (by simp)).conditions
    rw [reverse_cons, nestedRules_append, outerRulesUnder_append, hnested, houter,
      Emission.nestedRules_wrapIn hframes, Emission.outerRulesUnder_wrapIn hframes, Rule.toNode,
      nestedRules_rule, outerRulesUnder_rule, e.rulesOf_toRule]
    exact ⟨rfl, (conditions ++ e.conditions, e.toRule number place settled) :: emitted,
      .cons ⟨rfl, number, place, settled, rfl⟩ hemitted,
      by rw [reverse_cons]⟩

/-- What settling makes of the rules of some nodes that stand in the at-rules `conditions`.  An
error ends it: the rules before it are settled, and the others are left as they are. -/
def SettlesUnder (c : Job) (conditions : List AtHead) (nodes : List Node)
    (w : Walked (List Node) SettleState BlockError) : Prop :=
  nestedRules w.result = nestedRules nodes ∧ ∃ settled rest lists,
    outerRulesUnder conditions nodes = settled ++ rest ∧
      List.Forall₂ c.SettledUnder settled lists ∧
      outerRulesUnder conditions w.result = lists.flatten ++ rest ∧
      (w.error = none → rest = [])

theorem settlesUnder_self (conditions : List AtHead) (nodes : List Node) (state : SettleState)
    {error : Option BlockError} (h : error = none → outerRulesUnder conditions nodes = []) :
    c.SettlesUnder conditions nodes ⟨nodes, state, error⟩ :=
  ⟨rfl, [], outerRulesUnder conditions nodes, [], rfl, .nil, rfl, h⟩

mutual

theorem settlesUnder_settleNode (conditions : List AtHead) {s : SettleState}
    (hs : s.table.IsSound) : (node : Node) →
    ((c.settleNode s node).error = none → (c.settleNode s node).state.table.IsSound) ∧
      c.SettlesUnder conditions [node] (c.settleNode s node)
  | .rule head body => by
    rw [settleNode]
    rcases hrun : (c.settleRule ⟨head, body⟩).run s with ⟨e | nodes, s'⟩
    · have hfails : some e ≠ none := Option.some_ne_none e
      exact ⟨fun h => absurd h hfails, settlesUnder_self conditions _ _ fun h => absurd h hfails⟩
    obtain ⟨hnodes, hs'⟩ := settleRule_ok (n := 0) ⟨hs, Nat.zero_le _⟩ hrun
    obtain ⟨hnested, emitted, hemitted, houter⟩ :=
      outerRulesUnder_emitted hnodes (fun e he => mem_emissionsOf he) conditions
    refine ⟨fun _ => hs'.table, ?_, [(conditions, ⟨head, body⟩)], [],
      [(conditions, ⟨head, body.filter isConcrete⟩) :: emitted.reverse], ?_, ?_, ?_, fun _ => rfl⟩
    · rw [nestedRules_cons, nestedRules_rule, nestedRules_rule, hnested,
        rulesOf_filter_isConcrete, append_nil]
    · rw [outerRulesUnder_rule, append_nil]
    · exact .cons ⟨emitted, hemitted, rfl⟩ .nil
    · rw [outerRulesUnder_cons, outerRulesUnder_rule, houter]
      simp
  | .group head body => by
    rw [settleNode]
    by_cases hf : head.holdsFrames
    · simp only [hf, if_true]
      exact ⟨fun _ => hs, settlesUnder_self conditions _ _ fun _ => by
        rw [outerRulesUnder_group, if_pos hf]⟩
    · simp only [hf, Bool.false_eq_true, if_false]
      have hbody := settlesUnder_settleNodes (conditions ++ [head]) hs body
      simpa [SettlesUnder, outerRulesUnder_group, nestedRules_group, hf] using hbody
  | .statement _ | .declaration _ | .comment .. =>
    ⟨fun _ => hs, settlesUnder_self conditions _ _ fun _ => rfl⟩

/-- **Settling** puts the emissions of a rule behind it, into the at-rules around it, and leaves
alone the rules that stand in other rules. -/
theorem settlesUnder_settleNodes (conditions : List AtHead) {s : SettleState}
    (hs : s.table.IsSound) : (nodes : List Node) →
    ((c.settleNodes s nodes).error = none → (c.settleNodes s nodes).state.table.IsSound) ∧
      c.SettlesUnder conditions nodes (c.settleNodes s nodes)
  | [] => ⟨fun _ => hs, settlesUnder_self conditions _ _ fun _ => rfl⟩
  | node :: nodes => by
    obtain ⟨hs₁, hnested₁, settled₁, rest₁, lists₁, hsplit₁, hlists₁, houter₁, hrest₁⟩ :=
      settlesUnder_settleNode conditions hs node
    rw [settleNodes]
    cases hn : (c.settleNode s node).error with
    | some e =>
      have hfails : some e ≠ none := Option.some_ne_none e
      refine ⟨fun h => absurd h hfails, ?_, settled₁, rest₁ ++ outerRulesUnder conditions nodes,
        lists₁, ?_, hlists₁, ?_, fun h => absurd h hfails⟩
      · rw [nestedRules_append, hnested₁, ← nestedRules_append]
        rfl
      · rw [outerRulesUnder_cons, hsplit₁, append_assoc]
      · rw [outerRulesUnder_append, houter₁, append_assoc]
    | none =>
      obtain ⟨hs₂, hnested₂, settled₂, rest₂, lists₂, hsplit₂, hlists₂, houter₂, hrest₂⟩ :=
        settlesUnder_settleNodes conditions (hs₁ hn) nodes
      obtain rfl : rest₁ = [] := hrest₁ hn
      rw [append_nil] at hsplit₁ houter₁
      refine ⟨hs₂, ?_, settled₁ ++ settled₂, rest₂, lists₁ ++ lists₂, ?_,
        rel_append hlists₁ hlists₂, ?_, hrest₂⟩
      · rw [nestedRules_append, hnested₁, hnested₂, ← nestedRules_append]
        rfl
      · rw [outerRulesUnder_cons, hsplit₁, hsplit₂, append_assoc]
      · rw [outerRulesUnder_append, houter₁, houter₂, flatten_append, append_assoc]

end

def SettlesRules (c : Job) (nodes result : List Node) : Prop :=
  nestedRules result = nestedRules nodes ∧
    ∃ lists, List.Forall₂ c.SettledTo (outerRules nodes) lists ∧ outerRules result = lists.flatten

theorem settlesRules_settleNodes {s : SettleState} (hs : s.table.IsSound) (nodes : List Node)
    (h : (c.settleNodes s nodes).error = none) :
    (c.settleNodes s nodes).state.table.IsSound ∧
      c.SettlesRules nodes (c.settleNodes s nodes).result := by
  obtain ⟨hs', hnested, settled, rest, lists, hsplit, hlists, houter, hrest⟩ :=
    settlesUnder_settleNodes (c := c) [] hs nodes
  obtain rfl : rest = [] := hrest h
  rw [append_nil] at hsplit houter
  refine ⟨hs' h, hnested, lists.map (map Prod.snd), ?_, ?_⟩
  · rw [← map_snd_outerRulesUnder [], hsplit, forall₂_map_left_iff, forall₂_map_right_iff]
    exact hlists.imp fun a l hl => hl.settledTo
  · rw [← map_snd_outerRulesUnder [], houter, map_flatten]

end Job

end StyleBlocks
