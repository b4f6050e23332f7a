import StyleBlocks.Proofs.Compilation.Scope
import StyleBlocks.Proofs.Session.Buckets

/-!
# Two ways to find a conflict

That two objects conflict is found in the sets of properties which were built up while the blocks were
read.  A resolution looks through the stylesheet of the other block once more, reads the selectors
again and asks each declaration whether it overlaps.

Main result: `Session.Reachable.conflicts_agree`.
-/

namespace StyleBlocks

open List

variable {pseudo : Option String} {loading : List String} {sheet : Stylesheet} {w : Workspace}
  {t : ObjectId} {p : String}

/-! ## Selectors with output classes -/

theorem Compound.pseudoName?_filter (c : Compound) :
    Compound.pseudoName? (c.filter Simple.isPseudo) = c.pseudoName? := by
  induction c with
  | nil => rfl
  | cons s c ih =>
    unfold Compound.pseudoName? at ih ⊢
    cases s with
    | pseudoElement name argument => rfl
    | pseudoClass name argument =>
      by_cases hscope : (Simple.pseudoClass name argument).isPseudo = true
      · rw [filter_cons_of_pos hscope, findSome?_cons, findSome?_cons, ih]
      · rw [filter_cons_of_neg hscope, findSome?_cons, ih]
        rfl
    | _ => exact ih

theorem Catalog.WritesSelector.pseudoName? {g : Catalog} {n : Nat} {s written : Selector}
    (h : g.WritesSelector n s written) : written.key.pseudoName? = s.key.pseudoName? := by
  have hkey : g.WritesCompound n s.key written.key := by
    have hlast := rel_reverse h.compounds
    rw [Selector.compounds, Selector.compounds, reverse_append, reverse_append] at hlast
    cases hlast with
    | cons hkey _ => exact hkey
  obtain ⟨path, id, -, -, hwritten⟩ := hkey
  rw [hwritten, Compound.pseudoName?, findSome?_cons]
  exact Compound.pseudoName?_filter s.key

/-! ## Declarations of an object -/

namespace Workspace.Sound

/-- **An object has the declarations of the rules that style it**, without those of the block
language. -/
theorem mem_declarationsFor_iff (h : w.Sound loading)
    (hsheet : (w.catalog.block t.block).stylesheet = some sheet) {s : StyleObject}
    (hs : w.catalog.object? t = some s) {d : Declaration} :
    d ∈ s.contributions.declarationsFor pseudo ↔ ∃ r ∈ sheet.rules,
      (t, pseudo) ∈ (w.catalog.block t.block).keysOf r ∧ d ∈ BlockReader.concreteDeclarations r := by
  obtain ⟨file, hreflects⟩ := (h.soundAt t.block sheet hsheet).reflects
  have hnumber := (h.orderly (Block.isComplete_of_stylesheet hsheet)).number
  have hcontributions : s.contributions.forPseudo pseudo
      = (sheet.rules.filter ((w.catalog.block t.block).styles t.index pseudo)).map
        (Block.contributionOf file) := by
    rw [← hreflects.mirrors t.index pseudo, Block.contributionsAt]
    rw [Catalog.object?] at hs
    rw [hs]
    rfl
  have hstyles : ∀ r, (w.catalog.block t.block).styles t.index pseudo r = true ↔
      (t, pseudo) ∈ (w.catalog.block t.block).keysOf r ∧ BlockReader.concreteDeclarations r ≠ [] := by
    intro r
    rw [Block.styles, hnumber]
    simp
  rw [Contributions.declarationsFor, hcontributions]
  simp only [mem_flatMap, mem_map, mem_filter, hstyles]
  constructor
  · rintro ⟨_, ⟨r, ⟨hr, hkey, -⟩, rfl⟩, hd⟩
    exact ⟨r, hr, hkey, hd⟩
  · rintro ⟨r, hr, hkey, hd⟩
    exact ⟨_, ⟨r, ⟨hr, hkey, ne_nil_of_mem hd⟩, rfl⟩, hd⟩

end Workspace.Sound

/-! ## The rules of the other block -/

namespace Job

variable {c : Job}

theorem rivalOf?_of_compileSelector {s written : Selector}
    (h : c.catalog.compileSelector t.block s = .ok written) (conditions : List AtHead) (rule : Rule)
    (values : List Declaration) : c.rivalOf? t conditions rule values s
      = .ok (if (c.catalog.block t.block).keyObject? s = some t then
          some ⟨written, values, conditions.map fun h => { h with location := .nowhere }⟩
        else none) := by
  unfold rivalOf? Block.keyObject?
  split
  · rename_i hpath
    rw [hpath]
    rfl
  rename_i path rest hpath
  rw [hpath]
  by_cases hlocal : path.block.isSome = true
  · simp [hlocal]
  · by_cases hfind : (c.catalog.block t.block).find? path = some t
    · simp [hlocal, hfind, h]
    · simp [hlocal, hfind]

section

variable (h : w.Sound loading) (hc : c.catalog = w.catalog)
  (hsheet : (w.catalog.block t.block).stylesheet = some sheet)

include h hc hsheet

theorem succeeds_rivalsFor (n : Nat) : Succeeds (SettleState.IsSound n) (c.rivalsFor t p) := by
  have hread : c.readRivals t p = .ok (c.rivals t p) := by
    unfold readRivals rivals
    rw [hc, hsheet]
    dsimp only
    rw [mapM_eq_ok (g := c.rivalsIn t p) fun r hr => ?_]
    · rfl
    obtain ⟨selectors, hparse, hwritten⟩ :=
      h.exists_written hsheet (Stylesheet.mem_rules_iff.2 ⟨r.1, hr⟩)
    unfold readRivalsIn rivalsIn readTarget
    rw [hparse]
    dsimp only
    split
    · rfl
    change (selectors.mapM (c.rivalOf? t r.1 r.2 _) >>= fun found => .ok (found.filterMap id)) = _
    rw [mapM_eq_ok (g := fun s => ((c.rivalOf? t r.1 r.2 _ s).toOption).join) fun s hs => ?_]
    · exact congrArg Except.ok filterMap_map
    · obtain ⟨written, hcompile, -⟩ := hwritten s hs
      rw [rivalOf?_of_compileSelector (hc ▸ hcompile)]
      rfl
  intro s hs
  obtain ⟨s', hs', hrun⟩ := c.run_rivalsFor t p hs
  exact ⟨_, s', hread ▸ hrun, hs'⟩

theorem exists_mem_rivalsIn_iff {r : List AtHead × Rule} (hr : r.2 ∈ sheet.rules) :
    (∃ m ∈ c.rivalsIn t p r, m.selector.key.pseudoName? = pseudo) ↔
      (t, pseudo) ∈ (w.catalog.block t.block).keysOf r.2 ∧ valuesFor r.2 p ≠ [] := by
  obtain ⟨selectors, hparse, hwritten⟩ := h.exists_written hsheet hr
  unfold rivalsIn Block.keysOf
  rw [hparse]
  by_cases hvalues : valuesFor r.2 p = []
  · simp [hvalues]
  simp only [List.isEmpty_iff, hvalues, if_false, ne_eq, not_false_eq_true, and_true]
  constructor
  · rintro ⟨m, hm, hpseudo⟩
    obtain ⟨s, hs, hm⟩ := mem_filterMap.1 hm
    obtain ⟨written, hcompile, hwrites⟩ := hwritten s hs
    rw [rivalOf?_of_compileSelector (hc ▸ hcompile), hc] at hm
    split at hm
    · rename_i hkey
      cases hm
      refine mem_filterMap.2 ⟨s, hs, ?_⟩
      rw [hkey, ← hpseudo, hwrites.pseudoName?]
      rfl
    · cases hm
  · intro hkey
    obtain ⟨s, hs, hkey⟩ := mem_filterMap.1 hkey
    obtain ⟨x, hx, heq⟩ := Option.map_eq_some_iff.1 hkey
    cases heq
    obtain ⟨written, hcompile, hwrites⟩ := hwritten s hs
    refine ⟨⟨written, valuesFor r.2 p, r.1.map fun h => { h with location := .nowhere }⟩,
      mem_filterMap.2 ⟨s, hs, ?_⟩, hwrites.pseudoName?⟩
    rw [rivalOf?_of_compileSelector (hc ▸ hcompile), hc, if_pos hx]
    rfl

/-- **Where a rule for an object sets a property or one that overlaps it.** -/
theorem mem_rivals_iff :
    (∃ m ∈ c.rivals t p, m.selector.key.pseudoName? = pseudo) ↔ ∃ r ∈ sheet.rules,
      (t, pseudo) ∈ (w.catalog.block t.block).keysOf r ∧ valuesFor r p ≠ [] := by
  unfold rivals
  rw [hc, hsheet]
  constructor
  · rintro ⟨m, hm, hpseudo⟩
    obtain ⟨r, hr, hm⟩ := mem_flatMap.1 hm
    have hr : r.2 ∈ sheet.rules := Stylesheet.mem_rules_iff.2 ⟨r.1, hr⟩
    exact ⟨r.2, hr, (exists_mem_rivalsIn_iff h hc hsheet hr).1 ⟨m, hm, hpseudo⟩⟩
  · rintro ⟨r, hr, hkey⟩
    obtain ⟨conditions, hmem⟩ := Stylesheet.mem_rules_iff.1 hr
    obtain ⟨m, hm, hpseudo⟩ :=
      (exists_mem_rivalsIn_iff h hc hsheet (r := (conditions, r)) hr).2 hkey
    exact ⟨m, mem_flatMap.2 ⟨_, hmem, hm⟩, hpseudo⟩

end

end Job

/-! ## Both ways -/

def isLanguageProperty (p : String) : Bool :=
  languageProperties.any (sameIgnoringCase p)

theorem valuesFor_ne_nil_iff {r : Rule} (hp : isLanguageProperty p = false) :
    Job.valuesFor r p ≠ [] ↔
      ∃ d ∈ BlockReader.concreteDeclarations r, overlaps d.property p = true := by
  constructor
  · intro hne
    obtain ⟨d, hd⟩ := exists_mem_of_ne_nil _ hne
    obtain ⟨hd, hvalue⟩ := mem_filter.1 hd
    obtain ⟨hoverlaps, hasks⟩ := Bool.and_eq_true_iff.1 hvalue
    refine ⟨d, mem_filter.2 ⟨hd, ?_⟩, hoverlaps⟩
    rw [hasks, Bool.and_true, Bool.not_eq_true', ← Bool.not_eq_true, contains_iff_mem]
    intro hlanguage
    have := any_eq_true.2 (language_of_overlaps hoverlaps hlanguage)
    exact absurd (hp.symm.trans this) (by decide)
  · rintro ⟨d, hd, hoverlaps⟩
    obtain ⟨hd, hconcrete⟩ := mem_filter.1 hd
    exact ne_nil_of_mem (mem_filter.2
      ⟨hd, by rw [hoverlaps, (Bool.and_eq_true_iff.1 hconcrete).2]; rfl⟩)

theorem Workspace.Sound.exists_touched_iff (h : w.Sound loading)
    (hsheet : (w.catalog.block t.block).stylesheet = some sheet) {s : StyleObject}
    (hs : w.catalog.object? t = some s) (hp : isLanguageProperty p = false) :
    (∃ x ∈ s.contributions.touched pseudo, overlaps x p = true) ↔ ∃ r ∈ sheet.rules,
      (t, pseudo) ∈ (w.catalog.block t.block).keysOf r ∧ Job.valuesFor r p ≠ [] := by
  simp only [Contributions.mem_touched, valuesFor_ne_nil_iff hp]
  constructor
  · rintro ⟨x, ⟨d, hd, hx⟩, hoverlaps⟩
    obtain ⟨r, hr, hkey, hd⟩ := (h.mem_declarationsFor_iff hsheet hs).1 hd
    exact ⟨r, hr, hkey, d, hd, exists_covered_overlaps_iff.1 ⟨x, hx, hoverlaps⟩⟩
  · rintro ⟨r, hr, hkey, d, hd, hoverlaps⟩
    obtain ⟨x, hx, hoverlaps⟩ := exists_covered_overlaps_iff.2 hoverlaps
    exact ⟨x, ⟨d, (h.mem_declarationsFor_iff hsheet hs).2 ⟨r, hr, hkey, hd⟩, hx⟩, hoverlaps⟩

/-- **The sets of properties and the stylesheets tell the same conflicts.**  In every state of a
session, for every object of a block that is loaded, every pseudo-element and every property outside
the block language: looking for the rules that set the property succeeds, and some rule for the
pseudo-element is found exactly if one of the properties that the object is known to touch there
overlaps the property.  And for any two objects it does not matter which one is asked first; they
conflict for a pseudo-element exactly if a declaration of the one and a declaration of the other
overlap there. -/
theorem Session.Reachable.conflicts_agree {s : Session} (hs : s.Reachable) :
    (∀ (c : Job) (state : SettleState) (t : ObjectId) (object : StyleObject) (p : String),
      c.catalog = s.catalog → state.table.IsSound → (s.catalog.block t.block).IsComplete →
      s.catalog.object? t = some object → isLanguageProperty p = false →
      ∃ rivals, ((c.rivalsFor t p).run state).1 = .ok rivals ∧ ∀ pseudo,
        (∃ x ∈ object.contributions.touched pseudo, overlaps x p = true) ↔
          ∃ m ∈ rivals, m.selector.key.pseudoName? = pseudo) ∧
    ∀ a b : ObjectId, sharedProperties s.catalog a b = sharedProperties s.catalog b a ∧ ∀ pseudo,
      (∃ shared, (pseudo, shared) ∈ sharedProperties s.catalog a b ∧ shared ≠ []) ↔
        ∃ d ∈ s.catalog.declarationsFor a pseudo, ∃ e ∈ s.catalog.declarationsFor b pseudo,
          overlaps d.property e.property = true := by
  refine ⟨fun c state t object p hc htable hcomplete hobject hp => ?_, fun a b => ⟨?_, fun pseudo =>
    mem_sharedProperties_iff⟩⟩
  · obtain ⟨sheet, hsheet⟩ := Option.isSome_iff_exists.1 hcomplete
    obtain ⟨rivals, state', hrun, -⟩ :=
      Job.succeeds_rivalsFor hs.sound hc hsheet 0 state ⟨htable, Nat.zero_le _⟩
    refine ⟨rivals, congrArg Prod.fst hrun, fun pseudo => ?_⟩
    obtain ⟨rfl, -⟩ := Job.rivalsFor_ok (n := 0) ⟨htable, Nat.zero_le _⟩ hrun
    rw [hs.sound.exists_touched_iff hsheet hobject hp, Job.mem_rivals_iff hs.sound hc hsheet]
  · have hascends : ∀ (a : ObjectId) (t : StyleObject), s.catalog.object? a = some t →
        t.contributions.Ascends := fun a t ht => hs.ascends a.block t (List.mem_of_getElem? ht)
    exact sharedProperties_comm (hascends a) (hascends b)

/-- A block with a class that sets a shorthand for a pseudo-element, and with another one. -/
def shorthandBefore : Session :=
  .ofFiles [("a.css", ".x::before \x7b margin: 0 \x7d @media print \x7b .x \x7b color: red \x7d \x7d " ++
    ".y, .y::before \x7b margin-top: 1px \x7d")] ["a.css"]

theorem conflicts_agree_shorthandBefore : ∃ object rivals,
    shorthandBefore.catalog.object? ⟨0, 1⟩ = some object ∧
    (((⟨shorthandBefore.catalog, 0, none⟩ : Job).rivalsFor ⟨0, 1⟩ "margin-top").run ⟨.empty, 0⟩).1
      = .ok rivals ∧
    (∃ x ∈ object.contributions.touched (some "before"), overlaps x "margin-top" = true) ∧
    (∃ m ∈ rivals, m.selector.key.pseudoName? = some "before") ∧
    sharedProperties shorthandBefore.catalog ⟨0, 1⟩ ⟨0, 2⟩
      = sharedProperties shorthandBefore.catalog ⟨0, 2⟩ ⟨0, 1⟩ := by
  obtain ⟨hrivals, hshared⟩ :=
    Session.Reachable.conflicts_agree (s := shorthandBefore) (Session.reachable_ofFiles _ _)
  have hcomplete : (shorthandBefore.catalog.block 0).stylesheet.isSome = true := by decide +kernel
  have htouched : (shorthandBefore.catalog.object? ⟨0, 1⟩).any (fun object =>
      (object.contributions.touched (some "before")).any (overlaps · "margin-top")) = true := by
    decide +kernel
  obtain ⟨object, hobject, htouched⟩ := (Option.any_eq_true ..).1 htouched
  have htouched := List.any_eq_true.1 htouched
  obtain ⟨rivals, hrun, hiff⟩ := hrivals ⟨_, 0, none⟩ ⟨.empty, 0⟩ ⟨0, 1⟩ object "margin-top" rfl
    SelectorTable.isSound_empty hcomplete hobject (by decide +kernel)
  exact ⟨object, rivals, hobject, hrun, htouched, (hiff _).1 htouched, (hshared _ _).1⟩

end StyleBlocks
