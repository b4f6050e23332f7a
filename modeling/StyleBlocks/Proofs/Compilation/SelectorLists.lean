import Mathlib.Data.List.Find
import StyleBlocks.Proofs.Compilation.Injections
import StyleBlocks.Proofs.Compilation.Overrides

/-!
# The resolutions of a rule with several selectors

The keys of a rule's selectors may override different objects.  What is settled is kept by
pseudo-element and property, not by object.  So for each pseudo-element and property a resolution is
put in for the first selector that needs one, and none for the selectors behind it.

Main result: `Session.Reachable.settleInherited_lists`.
-/

namespace StyleBlocks

open List Injections

namespace Injections

variable {explicit : List String} {conflict : InheritedConflict} {i : Injections} {d : Declaration}
  {ds : List Declaration} {p v : String}

/-- There is a resolution with the property and the value. -/
def Has (i : Injections) (p v : String) : Prop :=
  ∃ e ∈ i.found, e.property = p ∧ e.value = v

/-- Some declaration of the property needs to be settled. -/
def wants (explicit : List String) (ds : List Declaration) (p : String)
    (conflict : InheritedConflict) : Bool :=
  ds.any fun d => needs explicit conflict d && d.property == p

theorem wants_cons : wants explicit (d :: ds) p conflict = true ↔
    needs explicit conflict d = true ∧ d.property = p ∨ wants explicit ds p conflict = true := by
  rw [wants, any_cons, Bool.or_eq_true, Bool.and_eq_true, beq_iff_eq]
  rfl

/-! ## One conflict -/

theorem mem_settled_addDeclaration {x : Option String × String} :
    x ∈ (i.addDeclaration explicit conflict d).settled ↔
      x ∈ i.settled ∨ needs explicit conflict d = true ∧ x = (conflict.pseudo, d.property) := by
  have hsettled : (i.addDeclaration explicit conflict d).settled
      = if needs explicit conflict d && decide ((conflict.pseudo, d.property) ∉ i.settled) then
          (conflict.pseudo, d.property) :: i.settled else i.settled := by
    rw [addDeclaration_ite]
    split
    · split <;> rfl
    · rfl
  rw [hsettled]
  by_cases hneeds : needs explicit conflict d = true
  · by_cases hold : (conflict.pseudo, d.property) ∈ i.settled
    · simp only [hold, hneeds, not_true, decide_false, Bool.and_false, Bool.false_eq_true, if_false]
      constructor
      · exact .inl
      · rintro (hx | ⟨-, rfl⟩)
        · exact hx
        · exact hold
    · simp [hold, hneeds, or_comm]
  · simp [hneeds]

theorem has_addDeclaration : (i.addDeclaration explicit conflict d).Has p v ↔ i.Has p v ∨
    needs explicit conflict d = true ∧ (conflict.pseudo, d.property) ∉ i.settled ∧
      d.property = p ∧ conflict.value = v := by
  rw [addDeclaration_ite]
  split
  · rename_i hneeds
    simp only [Bool.and_eq_true, decide_eq_true_eq] at hneeds
    split
    · -- the same resolution is there already
      rename_i hany
      obtain ⟨e, he, heq⟩ := any_eq_true.1 hany
      simp only [Bool.and_eq_true, beq_iff_eq] at heq
      constructor
      · exact .inl
      · rintro (hhas | ⟨-, -, rfl, rfl⟩)
        · exact hhas
        · exact ⟨e, he, heq⟩
    · simp [Has, hneeds, or_and_right, exists_or]
  · rename_i hno
    simp only [Bool.and_eq_true, decide_eq_true_eq] at hno
    constructor
    · exact .inl
    · rintro (hhas | ⟨hneeds, hsettled, -⟩)
      · exact hhas
      · exact absurd ⟨hneeds, hsettled⟩ hno

theorem mem_settled_foldl {x : Option String × String} :
    x ∈ (ds.foldl (addDeclaration explicit conflict) i).settled ↔
      x ∈ i.settled ∨ x.1 = conflict.pseudo ∧ wants explicit ds x.2 conflict = true := by
  induction ds generalizing i with
  | nil => simp [wants]
  | cons d ds ih =>
    rw [foldl_cons, ih, mem_settled_addDeclaration, or_assoc, wants_cons, and_or_left]
    refine or_congr_right (or_congr_left ?_)
    rw [Prod.ext_iff]
    constructor
    · rintro ⟨hneeds, hpseudo, hproperty⟩
      exact ⟨hpseudo, hneeds, hproperty.symm⟩
    · rintro ⟨hpseudo, hneeds, hproperty⟩
      exact ⟨hneeds, hpseudo, hproperty.symm⟩

/-- **One conflict**: a property gets a resolution if some declaration needs it and it is not
settled yet. -/
theorem has_foldl : (ds.foldl (addDeclaration explicit conflict) i).Has p v ↔ i.Has p v ∨
    (conflict.pseudo, p) ∉ i.settled ∧ wants explicit ds p conflict = true ∧
      conflict.value = v := by
  induction ds generalizing i with
  | nil => simp [wants]
  | cons d ds ih =>
    rw [foldl_cons, ih, has_addDeclaration, mem_settled_addDeclaration, wants_cons]
    constructor
    · rintro ((hhas | ⟨hneeds, hsettled, rfl, hv⟩) | ⟨hsettled, hwants, hv⟩)
      · exact .inl hhas
      · exact .inr ⟨hsettled, .inl ⟨hneeds, rfl⟩, hv⟩
      · exact .inr ⟨fun h => hsettled (.inl h), .inr hwants, hv⟩
    · rintro (hhas | ⟨hsettled, ⟨hneeds, rfl⟩ | hwants, hv⟩)
      · exact .inl (.inl hhas)
      · exact .inl (.inr ⟨hneeds, hsettled, rfl, hv⟩)
      by_cases hnow : needs explicit conflict d = true ∧ d.property = p
      · obtain ⟨hneeds, rfl⟩ := hnow
        exact .inl (.inr ⟨hneeds, hsettled, rfl, hv⟩)
      refine .inr ⟨?_, hwants, hv⟩
      rintro (h | ⟨hneeds, hp⟩)
      · exact hsettled h
      · exact hnow ⟨hneeds, (congrArg Prod.snd hp).symm⟩

/-! ## All conflicts -/

/-- **All conflicts**: for each pseudo-element a property gets a resolution for the first conflict
that some declaration needs it for. -/
theorem has_foldl_conflicts {conflicts : List InheritedConflict} :
    (conflicts.foldl (fun i conflict => ds.foldl (addDeclaration explicit conflict) i) i).Has p v ↔
      i.Has p v ∨ ∃ pseudo conflict, (pseudo, p) ∉ i.settled ∧
        conflicts.find? (fun c => decide (c.pseudo = pseudo) && wants explicit ds p c)
          = some conflict ∧ conflict.value = v := by
  induction conflicts generalizing i with
  | nil => simp
  | cons first conflicts ih =>
    rw [foldl_cons, ih, has_foldl]
    simp only [mem_settled_foldl]
    constructor
    · rintro ((hhas | ⟨hsettled, hwants, hv⟩) | ⟨pseudo, conflict, hsettled, hfind, hv⟩)
      · exact .inl hhas
      · refine .inr ⟨first.pseudo, first, hsettled, find?_cons_of_pos ?_, hv⟩
        simp [hwants]
      refine .inr ⟨pseudo, conflict, fun h => hsettled (.inl h), ?_, hv⟩
      rw [find?_cons_of_neg, hfind]
      intro hfirst
      simp only [Bool.and_eq_true, decide_eq_true_eq] at hfirst
      exact hsettled (.inr ⟨hfirst.1.symm, hfirst.2⟩)
    · rintro (hhas | ⟨pseudo, conflict, hsettled, hfind, hv⟩)
      · exact .inl (.inl hhas)
      by_cases hfirst : first.pseudo = pseudo ∧ wants explicit ds p first = true
      · obtain ⟨rfl, hwants⟩ := hfirst
        rw [find?_cons_of_pos (by simp [hwants])] at hfind
        cases hfind
        exact .inl (.inr ⟨hsettled, hwants, hv⟩)
      rw [find?_cons_of_neg (by simpa using hfirst)] at hfind
      refine .inr ⟨pseudo, conflict, ?_, hfind, hv⟩
      rintro (h | ⟨hpseudo, hwants⟩)
      · exact hsettled h
      · exact hfirst ⟨hpseudo.symm, hwants⟩

theorem wants_iff : wants explicit ds p conflict = true ↔
    (∃ d ∈ ds, d.property = p ∧ d.asksResolution = false) ∧
      conflict.properties.any (overlaps · p) = true ∧ explicit.any (overlaps · p) = false := by
  simp only [wants, needs, any_eq_true (l := ds), Bool.and_eq_true, Bool.not_eq_true', beq_iff_eq]
  constructor
  · rintro ⟨d, hd, ⟨⟨hasks, hconflict⟩, hexplicit⟩, rfl⟩
    exact ⟨⟨d, hd, rfl, hasks⟩, hconflict, hexplicit⟩
  · rintro ⟨⟨d, hd, rfl, hasks⟩, hconflict, hexplicit⟩
    exact ⟨d, hd, ⟨⟨hasks, hconflict⟩, hexplicit⟩, rfl⟩

end Injections

/-! ## The objects that selectors override -/

def Rule.resolved (r : Rule) : List String :=
  (r.declarations.filter Declaration.asksResolution).map (·.property)

/-- The rule sets the property itself and has no resolution for it. -/
def Rule.LeavesOpen (r : Rule) (p : String) : Prop :=
  (∃ d ∈ r.declarations, d.property = p ∧ d.asksResolution = false) ∧
    r.resolved.any (overlaps · p) = false

instance Rule.decidableLeavesOpen (r : Rule) (p : String) : Decidable (r.LeavesOpen p) :=
  inferInstanceAs (Decidable (_ ∧ _))

namespace Job

variable {c : Job} {s : Selector} {pseudo : Option String} {p : String} {r : Rule}

/-- The object that the key of a selector overrides. -/
def baseOf? (c : Job) (s : Selector) : Option ObjectId :=
  (c.keyObject? s).bind c.catalog.overridden?

/-- The object has a declaration for the pseudo-element that overlaps the property. -/
def touches (c : Job) (pseudo : Option String) (p : String) (t : ObjectId) : Bool :=
  (c.catalog.declarationsFor t pseudo).any (overlaps ·.property p)

/-- The selector asks for the pseudo-element, and the object that its key overrides has a
declaration there that overlaps the property. -/
def overridesAt (c : Job) (pseudo : Option String) (p : String) (s : Selector) : Bool :=
  decide (s.key.pseudoName? = pseudo) && (c.baseOf? s).any (c.touches pseudo p)

/-- The object over which a list of selectors resolves a property for a pseudo-element: what the
first such selector overrides. -/
def resolvedOver? (c : Job) (selectors : List Selector) (pseudo : Option String) (p : String) :
    Option ObjectId :=
  (selectors.find? (c.overridesAt pseudo p)).bind c.baseOf?

theorem inheritedConflict?_eq_bind (s : Selector) : c.inheritedConflict? s
    = (c.keyObject? s).bind fun x => (c.catalog.overridden? x).map fun t =>
      ⟨sharedPropertiesFor c.catalog x t s.key.pseudoName?, s.key.pseudoName?,
        c.resolutionTo t⟩ := by
  refine Option.bind_congr fun x _ => ?_
  exact Option.map_eq_bind.symm

theorem map_value_inheritedConflict? (s : Selector) :
    (c.inheritedConflict? s).map InheritedConflict.value = (c.baseOf? s).map c.resolutionTo := by
  rw [inheritedConflict?_eq_bind, baseOf?, Option.map_bind, Option.map_bind]
  refine Option.bind_congr fun x _ => ?_
  rw [Function.comp_apply, Option.map_map]
  rfl

theorem forall₂_injectNodes (nodes : List Node) :
    (c.injectNodes nodes).filterMap Node.declaration? = nodes.filterMap Node.declaration? ∧
      Forall₂ (fun r r' => r'.toRuleHead = r.toRuleHead ∧
          r'.declarations = c.injections r ++ r.declarations)
        (rulesOf nodes) (rulesOf (c.injectNodes nodes)) := by
  induction nodes using nodes_induct with
  | nil => exact ⟨rfl, .nil⟩
  | rule head body l ihbody ih =>
    refine ⟨ih.1, ?_⟩
    rw [injectNodes, injectNode, rulesOf, rulesOf, rulesOfNode, rulesOfNode, rulesOf_append,
      rulesOf_declarations, nil_append]
    refine .cons ⟨rfl, ?_⟩ (rel_append ihbody.2 ih.2)
    rw [Rule.declarations, filterMap_append, filterMap_declarations, ihbody.1]
    rfl
  | group head body l ihbody ih =>
    refine ⟨ih.1, ?_⟩
    rw [injectNodes, injectNode, rulesOf, rulesOf, rulesOfNode, rulesOfNode]
    split
    · exact ih.2
    · exact rel_append ihbody.2 ih.2
  | declaration d l ih => exact ⟨congrArg (d :: ·) ih.1, ih.2⟩
  | statement _ l ih | comment _ _ l ih => exact ih

/-- The first selector that overrides something at a property gives the object that is resolved
over. -/
theorem exists_resolvedOver? {selectors : List Selector} (hs : s ∈ selectors)
    (h : c.overridesAt pseudo p s = true) : ∃ t, c.resolvedOver? selectors pseudo p = some t := by
  obtain ⟨first, hfirst⟩ := Option.isSome_iff_exists.1 (find?_isSome.2 ⟨s, hs, h⟩)
  have hoverrides := find?_some hfirst
  obtain ⟨t, ht, -⟩ := (Option.any_eq_true _ _).1 (Bool.and_eq_true_iff.1 hoverrides).2
  exact ⟨t, by rw [resolvedOver?, hfirst, Option.bind_some, ht]⟩

end Job

namespace Workspace.Sound

variable {loading : List String} {w : Workspace} {n : Nat} {sheet : Stylesheet} {r : Rule}
  {selectors : List Selector} {p v : String}

section

variable (h : w.Sound loading) (hsheet : (w.catalog.block n).stylesheet = some sheet)
  (hr : r ∈ rulesOf (clearNodes sheet.nodes))
  (hparse : Selector.parseList r.selector = .ok selectors)

include h hsheet hr hparse

/-- A selector of a rule is in conflict where it overrides something at a property that the rule
leaves open. -/
theorem any_inheritedConflict? {s : Selector} (hs : s ∈ selectors) (hopen : r.LeavesOpen p)
    (pseudo : Option String) : ((w.catalog.job n sheet).inheritedConflict? s).any (fun conflict =>
        decide (conflict.pseudo = pseudo) &&
          wants r.resolved r.declarations p conflict)
      = (w.catalog.job n sheet).overridesAt pseudo p s := by
  obtain ⟨⟨d, hd, rfl, hasks⟩, hopen⟩ := hopen
  obtain ⟨x, object, hx, rfl, hobject, hown⟩ := h.exists_keyObject hsheet hr hparse hs
  rw [Job.inheritedConflict?_eq_bind, Job.overridesAt, Job.baseOf?, hx, Option.bind_some,
    Option.bind_some]
  cases ht : (w.catalog.job x.block sheet).catalog.overridden? x with
  | none => simp
  | some t =>
    obtain ⟨-, hti, -⟩ := h.overridden (Block.isComplete_of_stylesheet hsheet) ht
    have hts : w.catalog.object? t = some _ := getElem?_eq_getElem hti
    rw [Option.map_some, Option.any_some, Option.any_some]
    by_cases hpseudo : s.key.pseudoName? = pseudo
    · subst hpseudo
      have hshared : (sharedPropertiesFor w.catalog x t s.key.pseudoName?).any
          (overlaps · d.property)
            = (w.catalog.job x.block sheet).touches s.key.pseudoName? d.property t :=
        any_sharedPropertiesFor hobject hts (hown d hd hasks)
      rw [decide_eq_true rfl, Bool.true_and, Bool.true_and, Bool.eq_iff_iff, wants_iff]
      constructor
      · rintro ⟨-, hconflict, -⟩
        exact hshared.symm.trans hconflict
      · intro htouches
        exact ⟨⟨d, hd, rfl, hasks⟩, hshared.trans htouches, hopen⟩
    · rw [decide_eq_false hpseudo, Bool.false_and, Bool.false_and]

/-- **Which resolutions a rule is given.**  For each pseudo-element and each property that the rule
leaves open, it is the one over the object that the first selector overrides there. -/
theorem has_injections_iff :
    (∃ e ∈ (w.catalog.job n sheet).injections r, e.property = p ∧ e.value = v) ↔
      r.LeavesOpen p ∧ ∃ pseudo t,
        (w.catalog.job n sheet).resolvedOver? selectors pseudo p = some t ∧
          (w.catalog.job n sheet).resolutionTo t = v := by
  set c := w.catalog.job n sheet with hc
  have hfound : (∃ e ∈ c.injections r, e.property = p ∧ e.value = v) ↔ ∃ pseudo conflict,
      (selectors.filterMap c.inheritedConflict?).find? (fun k => decide (k.pseudo = pseudo) &&
        wants r.resolved r.declarations p k) = some conflict ∧ conflict.value = v := by
    rw [Job.injections, hparse]
    refine has_foldl_conflicts.trans ⟨?_, ?_⟩
    · rintro (⟨e, he, -⟩ | ⟨pseudo, conflict, -, hfind, hv⟩)
      · cases he
      · exact ⟨pseudo, conflict, hfind, hv⟩
    · rintro ⟨pseudo, conflict, hfind, hv⟩
      exact .inr ⟨pseudo, conflict, not_mem_nil, hfind, hv⟩
  rw [hfound]
  by_cases hopen : r.LeavesOpen p
  · -- for one pseudo-element the first conflict is that of the first selector
    have hfirst : ∀ pseudo, ((selectors.filterMap c.inheritedConflict?).find? fun k =>
        decide (k.pseudo = pseudo) && wants r.resolved r.declarations p k)
          = (selectors.find? (c.overridesAt pseudo p)).bind c.inheritedConflict? := by
      intro pseudo
      rw [find?_filterMap, find?_congr fun s hs =>
        h.any_inheritedConflict? hsheet hr hparse hs hopen pseudo]
    have hvalue : ∀ pseudo, ((selectors.find? (c.overridesAt pseudo p)).bind
        c.inheritedConflict?).map InheritedConflict.value
          = (c.resolvedOver? selectors pseudo p).map c.resolutionTo := by
      intro pseudo
      rw [Job.resolvedOver?, Option.map_bind, Option.map_bind]
      exact Option.bind_congr fun s _ => Job.map_value_inheritedConflict? s
    simp only [hopen, true_and, hfirst]
    refine exists_congr fun pseudo => ?_
    rw [← Option.map_eq_some_iff, ← Option.map_eq_some_iff, hvalue]
  · constructor
    · rintro ⟨pseudo, conflict, hfind, -⟩
      have hconflict := find?_some hfind
      obtain ⟨hsets, -, hno⟩ := wants_iff.1 (Bool.and_eq_true_iff.1 hconflict).2
      exact absurd ⟨hsets, hno⟩ hopen
    · rintro ⟨hopen', -⟩
      exact absurd hopen' hopen

end

end Workspace.Sound

/-- **The first selector counts.**  When the debug statements of a loaded block are carried out and
the block language is taken out, the pass for inherited conflicts succeeds and puts resolutions at
the start of rules.  A rule with any number of selectors is given resolutions for the properties
that it sets and does not resolve itself.  For each pseudo-element it is the one over the object
which the first selector for the pseudo-element overrides that has a declaration there which
overlaps the property.  So wherever a selector overrides an object that is touched by the rule,
there is a resolution for the property, but over what the first such selector overrides. -/
theorem Session.Reachable.settleInherited_lists {s : Session} (hs : s.Reachable) {n : Nat}
    {sheet : Stylesheet} (hsheet : (s.catalog.block n).stylesheet = some sheet) :
    ∃ k k', Pass.sequence ((passes (s.catalog.job n sheet) s.library.options).take 2)
        { sheet := sheet } = (k, none) ∧
      (s.catalog.job n sheet).settleInherited k = (k', none) ∧
      List.Forall₂ (fun r r' => r'.toRuleHead = r.toRuleHead ∧ ∃ selectors given,
          Selector.parseList r.selector = .ok selectors ∧
          r'.declarations = given ++ r.declarations ∧
          (∀ p v, (∃ e ∈ given, e.property = p ∧ e.value = v) ↔ r.LeavesOpen p ∧ ∃ pseudo t,
            (s.catalog.job n sheet).resolvedOver? selectors pseudo p = some t ∧
              (s.catalog.job n sheet).resolutionTo t = v) ∧
          ∀ selector ∈ selectors, ∀ t p, r.LeavesOpen p →
            (s.catalog.job n sheet).baseOf? selector = some t →
            (s.catalog.job n sheet).touches selector.key.pseudoName? p t = true →
            ∃ t', (s.catalog.job n sheet).resolvedOver? selectors selector.key.pseudoName? p
                = some t' ∧
              ∃ e ∈ r'.declarations, e.property = p ∧
                e.value = (s.catalog.job n sheet).resolutionTo t')
        k.sheet.rules k'.sheet.rules := by
  obtain ⟨k, k', hk, hk', hsheet', hrules⟩ := hs.settleInherited_ok hsheet
  refine ⟨k, k', hk, hk', ?_⟩
  have hgiven := (Job.forall₂_injectNodes (c := s.catalog.job n sheet) k.sheet.nodes).2
  rw [Stylesheet.rules, Stylesheet.rules, hsheet']
  refine forall₂_imp_of_mem hgiven ?_
  rintro r r' hr ⟨hhead, hdeclarations⟩
  have hr' := hrules r hr
  obtain ⟨r₀, hr₀, hhead₀, -⟩ := exists_of_mem_clearNodes hr'
  obtain ⟨selectors, -, hparse, -⟩ := hs.sound.compileSelectors hsheet hr₀
  rw [← hhead₀] at hparse
  have hexact : ∀ p v, (∃ e ∈ (s.catalog.job n sheet).injections r, e.property = p ∧ e.value = v) ↔
      r.LeavesOpen p ∧ ∃ pseudo t,
        (s.catalog.job n sheet).resolvedOver? selectors pseudo p = some t ∧
          (s.catalog.job n sheet).resolutionTo t = v :=
    fun p v => hs.sound.has_injections_iff hsheet hr' hparse
  refine ⟨hhead, selectors, _, hparse, hdeclarations, hexact, ?_⟩
  intro selector hselector t p hopen hbase htouches
  obtain ⟨t', ht'⟩ := Job.exists_resolvedOver? hselector
    (by simp [Job.overridesAt, hbase, htouches] :
      (s.catalog.job n sheet).overridesAt selector.key.pseudoName? p selector = true)
  obtain ⟨e, he, hp, hv⟩ := (hexact p _).2 ⟨hopen, _, t', ht', rfl⟩
  exact ⟨t', ht', e, hdeclarations ▸ List.mem_append_left _ he, hp, hv⟩

/-- A rule for two classes, each of which overrides one of another block. -/
def pairOverride : Session :=
  .ofFiles [("base.css", ".a \x7b color: red \x7d .b \x7b color: blue \x7d"),
    ("child.css", "@block-reference base from \"base.css\"; :scope \x7b extends: base \x7d " ++
      ".a, .b \x7b color: green \x7d")] ["child.css"]

theorem pairOverride_settleInherited : (pairOverride.catalog.block 0).stylesheet.any (fun sheet =>
    let c := pairOverride.catalog.job 0 sheet
    let k := (Pass.sequence ((passes c pairOverride.library.options).take 2) { sheet := sheet }).1
    (k.sheet.rules.any fun r => r.selector == ".a, .b" && decide (r.LeavesOpen "color")) &&
      (c.settleInherited k).1.sheet.rules.all (fun r => r.declarations.map Declaration.entry
        == [("color", "resolve-inherited(\"base.a\")"), ("color", "green")]) &&
      c.baseOf? (Job.classSelector "b") == some ⟨1, 2⟩ && c.touches none "color" ⟨1, 2⟩ &&
      c.resolutionTo ⟨1, 2⟩ == "resolve-inherited(\"base.b\")") = true := by
  decide +kernel

theorem parseList_pairOverride : Selector.parseList ".a, .b"
    = .ok [Job.classSelector "a", Job.classSelector "b"] := by
  decide +kernel

theorem settleInherited_lists_pairOverride : ∃ sheet,
    (pairOverride.catalog.block 0).stylesheet = some sheet ∧
    ∃ k k', Pass.sequence ((passes (pairOverride.catalog.job 0 sheet)
        pairOverride.library.options).take 2) { sheet := sheet } = (k, none) ∧
      (pairOverride.catalog.job 0 sheet).settleInherited k = (k', none) ∧
      ∃ r ∈ k.sheet.rules, ∃ r' ∈ k'.sheet.rules, r.LeavesOpen "color" ∧
        ∃ t', (pairOverride.catalog.job 0 sheet).resolvedOver?
            [Job.classSelector "a", Job.classSelector "b"] none "color" = some t' ∧
          ∃ e ∈ r'.declarations, e.property = "color" ∧
            e.value = (pairOverride.catalog.job 0 sheet).resolutionTo t' := by
  obtain ⟨sheet, hsheet, hpasses⟩ := (Option.any_eq_true _ _).1 pairOverride_settleInherited
  have hreachable : pairOverride.Reachable := Session.reachable_ofFiles _ _
  obtain ⟨k, k', hk, hk', hrules⟩ := hreachable.settleInherited_lists hsheet
  simp only [hk, hk', Bool.and_eq_true, beq_iff_eq] at hpasses
  obtain ⟨⟨⟨⟨hany, -⟩, hbase⟩, htouches⟩, -⟩ := hpasses
  obtain ⟨r, hr, hrule⟩ := List.any_eq_true.1 hany
  simp only [Bool.and_eq_true, beq_iff_eq, decide_eq_true_eq] at hrule
  obtain ⟨hselector, hopen⟩ := hrule
  obtain ⟨r', hr', -, selectors, -, hparse, -, -, hcovers⟩ := exists_right_of_forall₂ hrules hr
  rw [hselector, parseList_pairOverride] at hparse
  cases hparse
  obtain ⟨t', ht', hgiven⟩ :=
    hcovers (Job.classSelector "b") (by simp) _ "color" hopen hbase htouches
  exact ⟨sheet, hsheet, k, k', hk, hk', r, hr, r', hr', hopen, t', ht', hgiven⟩

/-- The second class overrides one that sets the color too, but the rule has no resolution over
it. -/
theorem pairOverride_forgets : ∃ sheet,
    (pairOverride.catalog.block 0).stylesheet = some sheet ∧
    ∃ k k', Pass.sequence ((passes (pairOverride.catalog.job 0 sheet)
        pairOverride.library.options).take 2) { sheet := sheet } = (k, none) ∧
      (pairOverride.catalog.job 0 sheet).settleInherited k = (k', none) ∧
      ∃ r ∈ k.sheet.rules, ∃ t,
        Selector.parseList r.selector = .ok [Job.classSelector "a", Job.classSelector "b"] ∧
        r.LeavesOpen "color" ∧
        (pairOverride.catalog.job 0 sheet).baseOf? (Job.classSelector "b") = some t ∧
        (pairOverride.catalog.job 0 sheet).touches none "color" t = true ∧
        ∀ r' ∈ k'.sheet.rules, ∀ e ∈ r'.declarations,
          e.value ≠ (pairOverride.catalog.job 0 sheet).resolutionTo t := by
  obtain ⟨sheet, hsheet, hpasses⟩ := (Option.any_eq_true _ _).1 pairOverride_settleInherited
  have hreachable : pairOverride.Reachable := Session.reachable_ofFiles _ _
  obtain ⟨k, k', hk, hk', -⟩ := hreachable.settleInherited_ok hsheet
  simp only [hk, hk', Bool.and_eq_true, beq_iff_eq] at hpasses
  obtain ⟨⟨⟨⟨hany, hall⟩, hbase⟩, htouches⟩, hvalue⟩ := hpasses
  obtain ⟨r, hr, hrule⟩ := List.any_eq_true.1 hany
  simp only [Bool.and_eq_true, beq_iff_eq, decide_eq_true_eq] at hrule
  obtain ⟨hselector, hopen⟩ := hrule
  refine ⟨sheet, hsheet, k, k', hk, hk', r, hr, ⟨1, 2⟩, hselector ▸ parseList_pairOverride, hopen,
    hbase, htouches, fun r' hr' e he => ?_⟩
  have hentries := eq_of_beq (List.all_eq_true.1 hall r' hr')
  have hentry : e.entry ∈ r'.declarations.map Declaration.entry := List.mem_map_of_mem he
  rw [hentries] at hentry
  rw [hvalue]
  intro heq
  rw [Declaration.entry, heq] at hentry
  simp at hentry

end StyleBlocks
