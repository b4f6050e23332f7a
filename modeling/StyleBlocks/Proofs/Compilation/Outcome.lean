import StyleBlocks.Proofs.Compilation.Overrides

/-!
# What an element gets from a compiled stylesheet

The compiled rules of a plain stylesheet select an element by one class, and the emitted ones by two.
So the last value of weight one is the last one that the stylesheet sets, and the last value of weight
two the last one of a setting that an overridden one contradicts.

Main result: `Workspace.Sound.lastAt_compiled`.
-/

namespace StyleBlocks

open List Rule Declaration Catalog Selector

variable {l : List (List Declaration)} {classes : List String} {p : String} {options : Options}
  {sheet : Stylesheet} {x : ObjectId} {g : Catalog} {key : Compound} {m : Nat} {r r' : Rule}

/-! ## Selectors of classes -/

theorem Rule.weight?_eq {r : Rule} {names : List String}
    (h : parseList r.selector = .ok [⟨[], names.map .className⟩]) :
    r.weight? classes = if ∀ name ∈ names, name ∈ classes then some names.length else none := by
  have hselects : (⟨[], names.map .className⟩ : Selector).selects classes = true ↔
      ∀ name ∈ names, name ∈ classes := by
    simp [selects]
  have hweight : (⟨[], names.map .className⟩ : Selector).weight = names.length := by
    simp [weight, compounds, Compound.classes, filterMap_map, Simple.className?]
  rw [Rule.weight?, h]
  dsimp only
  by_cases hall : ∀ name ∈ names, name ∈ classes
  · rw [if_pos hall, filter_cons_of_pos (hselects.2 hall)]
    simp [hweight]
  · rw [if_neg hall, filter_cons_of_neg fun hs => hall (hselects.1 hs)]
    rfl

theorem Rule.applied_eq {r : Rule} {names classes : List String} (hne : names ≠ [])
    (hreadable : ∀ name ∈ names, '\x00' ∉ name.toList ∧ name.toList ≠ [])
    (hselector : r.selector = (⟨[], names.map .className⟩ : Selector).render) :
    r.applied classes p = if ∀ name ∈ names, name ∈ classes then
      (r.setting p).map fun d => (names.length, d.value) else [] := by
  have hparse := parseList_render_classNames hne hreadable
  rw [← hselector] at hparse
  rw [Rule.applied, Rule.weight?_eq hparse]
  by_cases hall : ∀ name ∈ names, name ∈ classes
  · rw [if_pos hall, if_pos hall]
  · rw [if_neg hall, if_neg hall]

/-! ## One rule -/

namespace Catalog

/-- The values that a setting comes to: its own, and once more in the rules that are emitted. -/
def ruleValues (g : Catalog) (x : ObjectId) (property : String) (own : List Declaration) :
    List (Nat × String) :=
  (own.map fun d => (1, d.value)) ++
    if g.clashes x property own then own.map fun d => (2, d.value) else []

theorem clashes_congr {p q : String} {own : List Declaration} (h : lowercase p = lowercase q) :
    g.clashes x p own = g.clashes x q own := by
  unfold clashes
  simp only [settings_congr h]

end Catalog

theorem Job.WalksTo.declarations_settled {c : Job} (h : c.WalksTo r r' key x)
    (hread : ∀ t, c.catalog.overridden? x = some t → c.ReadsBack t) :
    (⟨r'.toRuleHead, r'.body.filter isConcrete⟩ : Rule).declarations = r.declarations := by
  obtain ⟨compiled, hcompiled⟩ := h.compiled
  have hinjected : ∀ e ∈ c.injectionsFor r [⟨[], key⟩], e.asksResolution = true := by
    intro e he
    obtain ⟨t, ht, hvalue⟩ := h.value_of_mem he
    rw [asksResolution, hvalue, (hread t ht).1]
  rw [declarations_filter_isConcrete, hcompiled.declarations, filter_append,
    filter_eq_nil_iff.2 fun e he => by simp [hinjected e he], nil_append,
    filter_eq_self.2 fun d hd => by
      simp [asksResolution_of_isPlain (h.plain d hd)]]

theorem Emission.applied_eq {cx cy p : String} {values : List Declaration}
    (hx : '\x00' ∉ cx.toList ∧ cx.toList ≠ []) (hy : '\x00' ∉ cy.toList ∧ cy.toList ≠ [])
    {rule : Rule} (h : (⟨[], [(Job.pairSelector cx cy).render], values⟩ : Emission).IsRule rule) :
    rule.applied classes p = if cx ∈ classes ∧ cy ∈ classes then
      (values.filter fun d => sameIgnoringCase d.property p).map fun d => (2, d.value) else [] := by
  obtain ⟨number, place, settled, rfl⟩ := h
  have hreadable : ∀ name ∈ [cx, cy], '\x00' ∉ name.toList ∧ name.toList ≠ [] :=
    forall_mem_cons.2 ⟨hx, forall_mem_singleton.2 hy⟩
  rw [Rule.applied_eq (by simp) hreadable rfl, setting, Emission.declarations_toRule,
    filter_map, map_map]
  refine if_congr ?_ rfl rfl
  simp

section

variable {loading : List String} {w : Workspace} (h : w.Sound loading)
  (hplain : w.catalog.PlainChain m) (hsheet : (w.catalog.block m).stylesheet = some sheet)
  (hwalks : (w.catalog.job m sheet).WalksTo r r' key x)

include h hplain hsheet hwalks

theorem Workspace.Sound.applied_settled :
    (⟨r'.toRuleHead, r'.body.filter Job.isConcrete⟩ : Rule).applied classes p
      = if w.catalog.className x ∈ classes then (r.setting p).map fun d => (1, d.value) else [] := by
  obtain rfl : x.block = m := hwalks.styles.block
  have hreadable : ∀ name ∈ [w.catalog.className x], '\x00' ∉ name.toList ∧ name.toList ≠ [] :=
    forall_mem_singleton.2 (h.className_readable (Block.isComplete_of_stylesheet hsheet))
  have hselector : (⟨r'.toRuleHead, r'.body.filter Job.isConcrete⟩ : Rule).selector
      = (⟨[], [w.catalog.className x].map .className⟩ : Selector).render := hwalks.selector
  rw [applied_eq (by simp) hreadable hselector, setting, hwalks.declarations_settled fun t ht =>
      hplain.readsBack _ (by simp) sheet hsheet x t rfl hwalks.styles.lt ht]
  refine if_congr ?_ rfl rfl
  simp

variable (hspelled : ∀ d ∈ r.declarations, ∀ e ∈ r.setting d.property, e.property = d.property)

include hspelled

theorem Workspace.Sound.applied_emitted (hclasses : w.catalog.className x ∈ classes →
      ∀ y ∈ w.catalog.lineage x, w.catalog.className y ∈ classes) {e : Emission}
    (he : e ∈ (w.catalog.job m sheet).emissionsOf r') {rule : Rule}
    (hrule : e.IsRule rule) : rule.applied classes p
      = if w.catalog.className x ∈ classes ∧ e.values = r.setting p then
        (r.setting p).map fun d => (2, d.value) else [] := by
  obtain rfl : x.block = m := hwalks.styles.block
  have hx : w.catalog.Holds x := ⟨Block.isComplete_of_stylesheet hsheet, hwalks.styles.lt⟩
  obtain ⟨q, hq, y, hy, -, rfl⟩ := (h.exists_emission_iff hplain hsheet hwalks).1 e he
  rw [Emission.applied_eq (h.className_readable hx.isComplete)
    (h.className_readable (h.of_mem_lineage hx hy).1.isComplete) hrule]
  dsimp only
  by_cases hclass : w.catalog.className x ∈ classes
  · rw [if_pos ⟨hclass, hclasses hclass y hy⟩]
    by_cases hqp : lowercase q = lowercase p
    · -- the values are all that the rule says about the property
      have hsetting : r.setting p = r.declared q := by
        rw [← setting_congr hqp, setting_eq_declared hspelled hq]
      rw [if_pos ⟨hclass, hsetting.symm⟩, hsetting, filter_eq_self.2]
      intro d hd
      rw [(mem_declared.1 hd).2, sameIgnoringCase_iff]
      exact hqp
    · rw [if_neg, filter_eq_nil_iff.2]
      · rfl
      · intro d hd
        rw [(mem_declared.1 hd).2, sameIgnoringCase_iff]
        exact hqp
      rintro ⟨-, heq⟩
      obtain ⟨d, hd⟩ := exists_mem_of_ne_nil _ hq
      have hdp := (mem_setting.1 (heq ▸ hd)).2
      rw [(mem_declared.1 hd).2] at hdp
      exact hqp hdp
  · rw [if_neg fun hboth => hclass hboth.1, if_neg fun hboth => hclass hboth.1]

/-- Some emitted rule gives an element the values that a rule sets exactly if an overridden setting
contradicts them. -/
theorem Workspace.Sound.exists_applied_iff
    (hclasses : ∀ y ∈ w.catalog.lineage x, w.catalog.className y ∈ classes)
    (hclass : w.catalog.className x ∈ classes)
    (hlanguage : languageProperties.contains (lowercase p) = false) (hset : r.setting p ≠ [])
    {emitted : List Rule}
    (hemitted : Forall₂ Emission.IsRule ((w.catalog.job m sheet).emissionsOf r') emitted) :
    (∃ rule ∈ emitted, rule.applied classes p = (r.setting p).map fun d => (2, d.value)) ↔
      w.catalog.clashes x p (r.setting p) = true := by
  obtain ⟨q, hqp, hq, hsetting⟩ := exists_setting_eq hspelled hset
  have hexists := (h.exists_emission_iff hplain hsheet hwalks).2 q hq (hqp ▸ hlanguage)
  rw [clashes_congr hqp.symm, hsetting, ← hexists, ← hsetting]
  constructor
  · rintro ⟨rule, hrule, hvalues⟩
    obtain ⟨e, he, hisRule⟩ := exists_left_of_forall₂ hemitted hrule
    refine ⟨e, he, ?_⟩
    rw [h.applied_emitted hplain hsheet hwalks hspelled (fun _ => hclasses) he hisRule] at hvalues
    split at hvalues
    · rename_i hboth
      exact hboth.2
    · exact absurd (map_eq_nil_iff.1 hvalues.symm) hset
  · rintro ⟨e, he, hvalues⟩
    obtain ⟨rule, hrule, hisRule⟩ := exists_right_of_forall₂ hemitted he
    refine ⟨rule, hrule, ?_⟩
    rw [h.applied_emitted hplain hsheet hwalks hspelled (fun _ => hclasses) he hisRule,
      if_pos ⟨hclass, hvalues⟩]

/-- **What is made of one rule**: its own values, and the same values with two classes if an
overridden setting contradicts them. -/
theorem Workspace.Sound.lastAt_settled (hclasses : w.catalog.className x ∈ classes →
      ∀ y ∈ w.catalog.lineage x, w.catalog.className y ∈ classes)
    (hlanguage : languageProperties.contains (lowercase p) = false) {l : List Rule}
    (hsettled : (w.catalog.job m sheet).SettledTo r' l) (weight : Nat) :
    lastAt weight (l.flatMap (Rule.applied classes p))
      = lastAt weight (if w.catalog.className x ∈ classes then
          w.catalog.ruleValues x p (r.setting p) else []) := by
  obtain ⟨emitted, hemitted, rfl⟩ := hsettled
  have hrules : ∀ rule ∈ emitted.reverse, ∃ e ∈ (w.catalog.job m sheet).emissionsOf r',
      rule.applied classes p = if w.catalog.className x ∈ classes ∧ e.values = r.setting p then
        (r.setting p).map fun d => (2, d.value) else [] := by
    intro rule hrule
    obtain ⟨e, he, hisRule⟩ := exists_left_of_forall₂ hemitted (mem_reverse.1 hrule)
    exact ⟨e, he, h.applied_emitted hplain hsheet hwalks hspelled hclasses he hisRule⟩
  rw [flatMap_cons, lastAt_append, h.applied_settled hplain hsheet hwalks]
  by_cases hclass : w.catalog.className x ∈ classes
  · have hsame : ∀ rule ∈ emitted.reverse, rule.applied classes p = [] ∨
        rule.applied classes p = (r.setting p).map fun d => (2, d.value) := by
      intro rule hrule
      obtain ⟨e, -, happly⟩ := hrules rule hrule
      rw [happly]
      split
      · exact .inr rfl
      · exact .inl rfl
    rw [if_pos hclass, if_pos hclass, ruleValues, lastAt_append, lastAt_flatMap_of_eq hsame]
    congr 1
    by_cases hset : r.setting p = []
    · simp [hset, lastAt]
    rw [apply_ite (lastAt weight)]
    refine if_congr ?_ rfl rfl
    simp only [mem_reverse]
    exact h.exists_applied_iff hplain hsheet hwalks hspelled (hclasses hclass) hclass hlanguage
      hset hemitted
  · simp only [hclass, false_and, if_false] at hrules
    rw [if_neg hclass, if_neg hclass, flatMap_eq_nil_iff.2]
    · rfl
    · intro rule hrule
      obtain ⟨e, -, happly⟩ := hrules rule hrule
      exact happly

end

/-! ## A stylesheet -/

namespace Catalog

/-- The values that a rule of the block `m` comes to, for an element that has the classes. -/
def valuesOf (g : Catalog) (m : Nat) (classes : List String) (property : String) (r : Rule) :
    List (Nat × String) :=
  ((g.block m).keysOf r).flatMap fun k =>
    if g.className k.1 ∈ classes then g.ruleValues k.1 property (r.setting property) else []

variable {r r₀ : Rule}

@[simp] theorem ruleValues_nil (g : Catalog) (x : ObjectId) (p : String) :
    g.ruleValues x p [] = [] := by
  simp [ruleValues]

namespace Styles

theorem valuesOf_eq (h : g.Styles m r key x) : g.valuesOf m classes p r
    = if g.className x ∈ classes then g.ruleValues x p (r.setting p) else [] := by
  rw [valuesOf, h.keysOf, flatMap_singleton]

theorem of_head (h : g.Styles m r₀ key x) (hhead : r.toRuleHead = r₀.toRuleHead) :
    g.Styles m r key x :=
  ⟨by rw [hhead]; exact h.parse, h.names, h.pseudo, h.compile, h.block, h.lt⟩

end Styles

end Catalog

theorem Rule.setting_of_cleared {r r₀ : Rule}
    (hlanguage : languageProperties.contains (lowercase p) = false)
    (h : r.declarations = r₀.declarations.filter fun d => !languageProperties.contains d.property) :
    r.setting p = r₀.setting p := by
  rw [Rule.setting, Rule.setting, h, filter_filter]
  refine filter_congr fun d _ => ?_
  by_cases hp : sameIgnoringCase d.property p = true
  · rw [hp, not_language_of_lowercase (sameIgnoringCase_iff.1 hp) hlanguage]
    rfl
  · rw [Bool.not_eq_true] at hp
    rw [hp, Bool.false_and]

theorem lastAt_of_forall₂ {R : Rule → List Rule → Prop} {rules : List Rule} {lists : List (List Rule)}
    (h : Forall₂ R rules lists) {f g : Rule → List (Nat × String)} {weight : Nat}
    (hstep : ∀ r ∈ rules, ∀ l, R r l → lastAt weight (l.flatMap f) = lastAt weight (g r)) :
    lastAt weight (lists.flatten.flatMap f) = lastAt weight (rules.flatMap g) := by
  induction h with
  | nil => rfl
  | @cons r l rules lists hr _ ih =>
    rw [flatten_cons, flatMap_append, flatMap_cons, lastAt_append, lastAt_append,
      ih fun r' hr' => hstep r' (by simp [hr']), hstep r (by simp) l hr]

theorem compile_ok_of_nestedRules {k : Compilation} (hk : compile g options m sheet = (k, none))
    (hnested : nestedRules (clearNodes sheet.nodes) = []) :
    ∃ lists number, Forall₂ (fun r l => ∃ r', (∃ selectors compiled,
        (g.job m sheet).CompiledTo r r' selectors compiled) ∧ (g.job m sheet).SettledTo r' l)
      (rulesOf (clearNodes sheet.nodes)) lists ∧
      rulesOf k.sheet.nodes
        = lists.flatten ++ rulesOf (exportNodes (g.job m sheet) options number) := by
  obtain ⟨compiled, state, hwalk, htable, herror, number, hnodes⟩ := compile_ok hk
  obtain ⟨-, hresult, lists, hlists, houter⟩ := Job.settlesRules_settleNodes htable compiled herror
  have hcompiled : nestedRules compiled = [] := by
    refine eq_nil_iff_forall_not_mem.2 fun r hr => ?_
    obtain ⟨⟨inside, r₀⟩, hr₀, hinside, -⟩ := exists_left_of_forall₂ hwalk (mem_nestedRules.1 hr)
    obtain rfl : inside = true := hinside
    rw [← mem_nestedRules, hnested] at hr₀
    cases hr₀
  rw [outerRules_of_nestedRules hcompiled] at hlists
  rw [outerRules_of_nestedRules (hresult.trans hcompiled)] at houter
  rw [placedRules_of_nestedRules hnested, placedRules_of_nestedRules hcompiled,
    forall₂_map_left_iff, forall₂_map_right_iff] at hwalk
  refine ⟨lists, number, (forall₂_comp hwalk hlists).imp ?_, ?_⟩
  · rintro r l ⟨r', ⟨-, hto⟩, hsettled⟩
    exact ⟨r', hto, hsettled⟩
  · rw [hnodes, rulesOf_append, houter]

theorem applied_exportNodes (c : Job) (options : Options) (number : Nat) (classes : List String)
    (p : String) : applied classes p (exportNodes c options number) = [] := by
  have hparse : parseList ":export" = .ok [⟨[], [.pseudoClass "export" none]⟩] := by
    decide +kernel
  unfold exportNodes
  split
  · rw [applied, rulesOf, rulesOfNode, rulesOf_declarations, rulesOf, append_nil,
      flatMap_singleton, Rule.applied, weight?, hparse]
    rfl
  · rfl

section

variable {loading : List String} {w : Workspace}

theorem Workspace.Sound.walksTo (h : w.Sound loading)
    (hsheet : (w.catalog.block m).stylesheet = some sheet) (hplain : sheet.isPlain = true)
    (hr : r ∈ rulesOf (clearNodes sheet.nodes)) (hunnested : rulesOf r.body = [])
    {selectors compiled : List Selector}
    (hcompiled : (w.catalog.job m sheet).CompiledTo r r' selectors compiled) :
    (∃ key x, (w.catalog.job m sheet).WalksTo r r' key x) ∧
      ∀ d ∈ r.declarations, ∀ e ∈ r.setting d.property, e.property = d.property := by
  obtain ⟨r₀, hr₀, hhead, hdeclarations⟩ := exists_of_mem_clearNodes hr
  have hrule := Stylesheet.isPlain_of_mem hplain hr₀
  obtain ⟨-, hdeclared, hspelled⟩ := Rule.isPlain_iff.1 hrule
  have hsub : ∀ d ∈ r.declarations, d ∈ r₀.declarations := by
    intro d hd
    rw [hdeclarations] at hd
    exact mem_of_mem_filter hd
  have hsetting : ∀ p, ∀ d ∈ r.setting p, d ∈ r₀.setting p := by
    intro p d hd
    obtain ⟨hmem, hp⟩ := mem_setting.1 hd
    exact mem_setting.2 ⟨hsub d hmem, hp⟩
  refine ⟨?_, fun d hd e he => hspelled d (hsub d hd) e (hsetting _ e he)⟩
  obtain ⟨key, x, hstyles₀⟩ := h.exists_styles hsheet hr₀ hrule
  have hstyles := hstyles₀.of_head hhead
  obtain rfl : selectors = [⟨[], key⟩] :=
    Except.ok.inj (hcompiled.parse.symm.trans hstyles.parse)
  refine ⟨key, x, hstyles, fun d hd => hdeclared d (hsub d hd), ?_, ?_, hunnested, compiled, hcompiled⟩
  · intro d hd
    rw [hdeclarations] at hd
    simpa using (mem_filter.1 hd).2
  intro p hp
  obtain ⟨d, hd⟩ := exists_mem_of_ne_nil _ hp
  obtain rfl : x.block = m := hstyles.block
  rw [job, settings_ne_nil_iff hsheet]
  exact ⟨r₀, hr₀, hstyles₀.mem_keysOf_iff.2 rfl, ne_nil_of_mem (hsetting p d hd)⟩

/-- **What is made of a plain stylesheet**: an element gets what its rules come to. -/
theorem Workspace.Sound.lastAt_compiled (h : w.Sound loading) (hplain : w.catalog.PlainChain m)
    (hsheet : (w.catalog.block m).stylesheet = some sheet) {k : Compilation}
    (hk : compile w.catalog options m sheet = (k, none))
    (hclasses : ∀ x, w.catalog.Holds x → x.block = m → w.catalog.className x ∈ classes →
      ∀ y ∈ w.catalog.lineage x, w.catalog.className y ∈ classes)
    (hlanguage : languageProperties.contains (lowercase p) = false) (weight : Nat) :
    lastAt weight (applied classes p k.sheet.nodes)
      = lastAt weight (sheet.rules.flatMap (w.catalog.valuesOf m classes p)) := by
  obtain ⟨hflat, -⟩ := Bool.and_eq_true_iff.1 (hplain.isPlain hsheet)
  obtain ⟨hcleared, hvalues⟩ := flatMap_clearNodes (f := w.catalog.valuesOf m classes p) hflat
    (fun r r' hhead hdeclarations => by
      rw [valuesOf, valuesOf, setting_of_cleared hlanguage hdeclarations,
        Block.keysOf, Block.keysOf, hhead])
    (fun r hr => by
      have hset : r.setting p = [] := by rw [setting, hr]; rfl
      simp [valuesOf, hset])
  obtain ⟨lists, number, hlists, hrules⟩ := compile_ok_of_nestedRules hk (nestedRules_of_flat hcleared)
  have hexport := applied_exportNodes (w.catalog.job m sheet) options number classes p
  rw [applied] at hexport
  rw [Stylesheet.rules, ← hvalues, applied, hrules, flatMap_append, hexport, append_nil]
  refine lastAt_of_forall₂ hlists ?_
  rintro r hr l ⟨r', ⟨selectors, compiled, hto⟩, hsettled⟩
  obtain ⟨⟨key, x, hwalks⟩, hspelled⟩ := h.walksTo hsheet (hplain.isPlain hsheet) hr
    (rulesOf_of_mem_flat hcleared hr) hto
  have hstyles : w.catalog.Styles m r key x := hwalks.styles
  rw [hstyles.valuesOf_eq]
  refine h.lastAt_settled hplain hsheet hwalks hspelled ?_ hlanguage hsettled weight
  obtain rfl : x.block = m := hstyles.block
  exact hclasses x ⟨Block.isComplete_of_stylesheet hsheet, hstyles.lt⟩ rfl

end

/-! ## One object -/

def lastValue (l : List Declaration) : Option String :=
  l.getLast?.map Declaration.value

theorem lastValue_append (l₁ l₂ : List Declaration) :
    lastValue (l₁ ++ l₂) = (lastValue l₂).or (lastValue l₁) := by
  rw [lastValue, getLast?_append]
  unfold lastValue
  cases l₂.getLast? <;> rfl

theorem lastValue_flatten_ne_none (h : ∀ own ∈ l, own ≠ []) :
    lastValue l.flatten ≠ none ↔ l ≠ [] := by
  have hflatten : l.flatten = [] ↔ l = [] := by
    cases l with
    | nil => simp
    | cons own l => simp [h own (by simp)]
  rw [Ne, Ne, ← hflatten, lastValue, Option.map_eq_none_iff, getLast?_eq_none_iff]

theorem exists_of_lastValue_flatten {v : String} (h : lastValue l.flatten = some v) :
    ∃ own ∈ l, lastValue own = some v := by
  induction l with
  | nil => cases h
  | cons own l ih =>
    rw [flatten_cons, lastValue_append] at h
    rcases Option.or_eq_some_iff.1 h with hl | ⟨-, hown⟩
    · obtain ⟨own', hown', hv⟩ := ih hl
      exact ⟨own', by simp [hown'], hv⟩
    · exact ⟨own, by simp, hown⟩

theorem lastValue_eq_of_not_differ {own other : List Declaration} (h : differ own other = false) :
    lastValue own = lastValue other := by
  have hentries : own.map entry = other.map entry := by
    simpa [differ] using h
  have hlast : ∀ l : List Declaration, lastValue l = (l.map entry).getLast?.map Prod.snd := by
    intro l
    rw [lastValue, getLast?_map, Option.map_map]
    rfl
  rw [hlast, hlast, hentries]

namespace Catalog

/-- The settings of an object that an overridden one contradicts. -/
def contested (g : Catalog) (x : ObjectId) (property : String) : List (List Declaration) :=
  (g.settings x property).filter (g.clashes x property)

/-- The contested settings of an object, or all of them if there are none. -/
def decisive (g : Catalog) (x : ObjectId) (property : String) : List (List Declaration) :=
  if g.contested x property = [] then g.settings x property else g.contested x property

/-- The values that all settings of an object come to. -/
def objectValues (g : Catalog) (x : ObjectId) (property : String) : List (Nat × String) :=
  (g.settings x property).flatMap (g.ruleValues x property)

variable {x y : ObjectId}

theorem exists_lastValue_decisive (h : g.settings x p ≠ []) :
    ∃ v, lastValue (g.decisive x p).flatten = some v := by
  have hmem : ∀ own ∈ g.decisive x p, own ∈ g.settings x p := by
    intro own hown
    rw [decisive] at hown
    split at hown
    · exact hown
    · exact mem_of_mem_filter hown
  refine Option.ne_none_iff_exists'.1 ((lastValue_flatten_ne_none fun own hown =>
    ne_nil_of_mem_settings (hmem own hown)).2 ?_)
  rw [decisive]
  split
  · exact h
  · assumption

theorem weight_of_mem_objectValues {e : Nat × String} (h : e ∈ g.objectValues x p) :
    e.1 = 1 ∨ e.1 = 2 := by
  obtain ⟨own, -, he⟩ := mem_flatMap.1 h
  rcases mem_append.1 he with he | he
  · obtain ⟨d, -, rfl⟩ := mem_map.1 he
    exact .inl rfl
  split at he
  · obtain ⟨d, -, rfl⟩ := mem_map.1 he
    exact .inr rfl
  · cases he

theorem lastAt_ruleValues (own : List Declaration) :
    lastAt 1 (g.ruleValues x p own) = lastValue own ∧
      lastAt 2 (g.ruleValues x p own) = if g.clashes x p own then lastValue own else none := by
  have hother : ∀ k k', k ≠ k' → lastAt k' (own.map fun d => (k, d.value)) = none := by
    intro k k' hne
    rw [lastAt_eq_none]
    intro e he
    obtain ⟨d, -, rfl⟩ := mem_map.1 he
    exact hne
  have hone := lastAt_map 1 value own
  have htwo := lastAt_map 2 value own
  rw [ruleValues, lastAt_append, lastAt_append, hone, hother 1 2 (by decide)]
  split
  · rw [htwo, hother 2 1 (by decide)]
    exact ⟨Option.none_or, Option.or_none⟩
  · exact ⟨Option.none_or, rfl⟩

theorem lastAt_one_objectValues (g : Catalog) (x : ObjectId) (p : String) :
    lastAt 1 (g.objectValues x p) = lastValue (g.settings x p).flatten := by
  unfold objectValues
  induction g.settings x p with
  | nil => rfl
  | cons own rest ih =>
    rw [flatMap_cons, lastAt_append, ih, flatten_cons, lastValue_append, (lastAt_ruleValues own).1]

theorem lastAt_two_objectValues (g : Catalog) (x : ObjectId) (p : String) :
    lastAt 2 (g.objectValues x p) = lastValue (g.contested x p).flatten := by
  unfold objectValues contested
  induction g.settings x p with
  | nil => rfl
  | cons own rest ih =>
    rw [flatMap_cons, lastAt_append, ih, (lastAt_ruleValues own).2]
    by_cases hclash : g.clashes x p own = true
    · rw [filter_cons_of_pos hclash, flatten_cons, lastValue_append, if_pos hclash]
    · rw [filter_cons_of_neg hclash, if_neg hclash]
      exact Option.or_none

theorem flatMap_valuesOf (hsheet : (g.block y.block).stylesheet = some sheet)
    (hstyles : ∀ r ∈ sheet.rules, ∃ key x, g.Styles y.block r key x)
    (hy : ∀ x, g.Holds x → x.block = y.block → (g.className x ∈ classes ↔ x = y)) :
    sheet.rules.flatMap (g.valuesOf y.block classes p) = g.objectValues y p := by
  rw [objectValues, settings_eq_flatMap hsheet, flatMap_assoc]
  refine flatMap_congr fun r hr => ?_
  obtain ⟨key, x, hx⟩ := hstyles r hr
  have hclass := hy x ⟨hx.block ▸ Block.isComplete_of_stylesheet hsheet, hx.block ▸ hx.lt⟩ hx.block
  rw [hx.valuesOf_eq]
  by_cases hyx : y = x
  · rw [if_pos (hclass.2 hyx.symm)]
    by_cases hset : r.setting p = []
    · rw [if_neg fun h => h.2 hset, hset, ruleValues_nil]
      rfl
    · rw [if_pos ⟨hx.mem_keysOf_iff.2 hyx, hset⟩, flatMap_singleton, hyx]
  · rw [if_neg fun h => hyx (hclass.1 h).symm, if_neg fun h => hyx (hx.mem_keysOf_iff.1 h.1)]
    rfl

theorem flatMap_valuesOf_eq_nil (hsheet : (g.block m).stylesheet = some sheet)
    (hstyles : ∀ r ∈ sheet.rules, ∃ key x, g.Styles m r key x)
    (hnone : ∀ x, g.Holds x → x.block = m → g.className x ∉ classes) :
    sheet.rules.flatMap (g.valuesOf m classes p) = [] := by
  refine flatMap_eq_nil_iff.2 fun r hr => ?_
  obtain ⟨key, x, hx⟩ := hstyles r hr
  rw [hx.valuesOf_eq, if_neg]
  exact hnone x ⟨hx.block ▸ Block.isComplete_of_stylesheet hsheet, hx.block ▸ hx.lt⟩ hx.block

end Catalog

end StyleBlocks
