import StyleBlocks.Proofs.Compilation.Plain
import StyleBlocks.Proofs.Compilation.References
import StyleBlocks.Proofs.Compilation.Rivals

/-!
# What plain stylesheets say about an object

The rules of a plain stylesheet for an object give each property a list of settings, one for each
rule that declares it.  On these depends which resolutions a rule is given, and with which rules of
other blocks it conflicts.

Main result: `Job.exists_injection_iff`.
-/

namespace StyleBlocks

open List Declaration

variable {s : StyleObject} {key : Compound} {r : Rule} {sheet : Stylesheet} {p : String} {m : Nat}

namespace Catalog

/-- The rules for an object in its own block. -/
def rulesFor (g : Catalog) (x : ObjectId) : List Rule :=
  match (g.block x.block).stylesheet with
  | none => []
  | some sheet => sheet.rules.filter fun r => ((g.block x.block).keysOf r).contains (x, none)

/-- What the rules for an object say about a property, rule by rule. -/
def settings (g : Catalog) (x : ObjectId) (property : String) : List (List Declaration) :=
  ((g.rulesFor x).map (·.setting property)).filter (!·.isEmpty)

variable {g : Catalog} {x y : ObjectId}

theorem settings_eq_flatMap (h : (g.block x.block).stylesheet = some sheet) (p : String) :
    g.settings x p = sheet.rules.flatMap fun r =>
      if (x, none) ∈ (g.block x.block).keysOf r ∧ r.setting p ≠ [] then [r.setting p] else [] := by
  rw [settings, rulesFor, h]
  dsimp only
  induction sheet.rules with
  | nil => rfl
  | cons r rules ih =>
    rw [flatMap_cons, ← ih]
    by_cases hr : (x, none) ∈ (g.block x.block).keysOf r
    · rw [filter_cons_of_pos (by simpa using hr), map_cons]
      by_cases hd : r.setting p = []
      · rw [filter_cons_of_neg (by simp [hd]), if_neg (by simp [hd])]
        rfl
      · rw [filter_cons_of_pos (by simp [hd]), if_pos ⟨hr, hd⟩]
        rfl
    · rw [filter_cons_of_neg (by simpa using hr), if_neg (by simp [hr])]
      rfl

theorem settings_ne_nil_iff (h : (g.block x.block).stylesheet = some sheet) :
    g.settings x p ≠ [] ↔ ∃ r ∈ sheet.rules, (x, none) ∈ (g.block x.block).keysOf r ∧
      r.setting p ≠ [] := by
  rw [settings_eq_flatMap h, Ne, flatMap_eq_nil_iff]
  constructor
  · intro hne
    by_contra hall
    push Not at hall
    refine hne fun r hr => if_neg ?_
    rintro ⟨hkey, hd⟩
    exact hd (hall r hr hkey)
  · rintro ⟨r, hr, hkey, hd⟩ hall
    have := hall r hr
    rw [if_pos ⟨hkey, hd⟩] at this
    cases this

theorem ne_nil_of_mem_settings {own : List Declaration} (h : own ∈ g.settings x p) : own ≠ [] := by
  simpa using (mem_filter.1 h).2

theorem settings_congr {q : String} (h : lowercase p = lowercase q) :
    g.settings x p = g.settings x q := by
  rw [settings, settings, map_congr_left fun r _ => Rule.setting_congr h]

/-- The rule has one selector, which names the object `x` of the block `m` and nothing else. -/
structure Styles (g : Catalog) (m : Nat) (r : Rule) (key : Compound) (x : ObjectId) : Prop where
  parse : Selector.parseList r.selector = .ok [⟨[], key⟩]
  names : (g.block m).keyObject? ⟨[], key⟩ = some x
  pseudo : key.pseudoName? = none
  compile : g.compileSelector m ⟨[], key⟩ = .ok ⟨[], [.className (g.className x)]⟩
  block : x.block = m
  lt : x.index < (g.block m).objects.length

namespace Styles

theorem keysOf (h : g.Styles m r key x) : (g.block m).keysOf r = [(x, none)] := by
  simp [Block.keysOf, h.parse, h.names, h.pseudo]

theorem mem_keysOf_iff (h : g.Styles m r key x) : (y, none) ∈ (g.block m).keysOf r ↔ y = x := by
  simp [h.keysOf]

end Styles

end Catalog

theorem pseudoName?_of_not_isPseudo (h : ∀ s ∈ key, s.isPseudo = false) :
    key.pseudoName? = none := by
  refine findSome?_eq_none_iff.2 fun s hs => ?_
  have := h s hs
  cases s with
  | pseudoElement => cases this
  | _ => rfl

theorem Workspace.Sound.exists_styles {loading : List String} {w : Workspace} (h : w.Sound loading)
    (hsheet : (w.catalog.block m).stylesheet = some sheet) (hr : r ∈ sheet.rules)
    (hplain : r.isPlain = true) :
    ∃ key x, w.catalog.Styles m r key x := by
  have horderly := h.orderly (Block.isComplete_of_stylesheet hsheet)
  obtain ⟨file, hreflects⟩ := (h.soundAt m sheet hsheet).reflects
  obtain ⟨selectors, hparse, hknown⟩ := hreflects.knows r hr
  obtain ⟨⟨key, hparse', hpseudo⟩, -⟩ := Rule.isPlain_iff.1 hplain
  obtain rfl : selectors = [⟨[], key⟩] := Except.ok.inj (hparse.symm.trans hparse')
  obtain ⟨x, hx⟩ := hknown ⟨[], key⟩ (by simp)
  obtain ⟨path, rest, hpath, hlocal, hfind⟩ := Block.keyObject?_eq_some.1 hx
  obtain ⟨hblock, hlt, -⟩ := horderly.find? hfind hlocal
  have hrest : rest = [] := by
    rw [(ObjectPath.ofCompound_ok_iff.1 hpath).2.2]
    exact filter_eq_nil_iff.2 fun s hs => by simp [hpseudo s hs]
  have hnamed : w.catalog.named? m path = some x := (Catalog.Sees.own hlocal hfind).named?_eq
  refine ⟨key, x, hparse, hx, pseudoName?_of_not_isPseudo hpseudo, ?_, hblock, hlt⟩
  have hcompound : w.catalog.compileCompound m key = .ok [.className (w.catalog.className x)] := by
    rw [Catalog.compileCompound_eq hpath hnamed, hrest]
  show (Except.ok [] >>= fun context => w.catalog.compileCompound m key >>= fun key =>
    (.ok (Selector.mk context key) : Except OutputFault Selector)) = _
  rw [hcompound]
  rfl

namespace Job

variable {c : Job} {y : ObjectId}

/-! ## Rules of other blocks -/

theorem rivalsIn_eq {x : ObjectId} (h : c.catalog.Styles m r key x) (hplain : r.isPlain = true)
    (hy : y.block = m) (hp : covered p = [lowercase p]) :
    c.rivalsIn y p ([], r) = if y = x ∧ r.setting p ≠ [] then
      [⟨⟨[], [.className (c.catalog.className y)]⟩, r.setting p, []⟩] else [] := by
  unfold rivalsIn
  rw [Rule.valuesFor_eq (r.declarations_of_isPlain hplain) hp, h.parse]
  by_cases hd : r.setting p = []
  · simp [hd]
  subst hy
  have hrival := rivalOf?_of_compileSelector h.compile [] r (r.setting p)
  rw [h.names] at hrival
  by_cases hyx : y = x
  · subst hyx
    simp [hrival, hd, Except.toOption]
  · have hne : x ≠ y := fun heq => hyx heq.symm
    simp [hrival, hne, hyx, hd, Except.toOption]

/-- **The rules for an object that set a property are its settings.** -/
theorem rivals_eq (hsheet : (c.catalog.block y.block).stylesheet = some sheet)
    (hplain : sheet.isPlain = true)
    (hstyles : ∀ r ∈ sheet.rules, ∃ key x, c.catalog.Styles y.block r key x)
    (hp : covered p = [lowercase p]) :
    c.rivals y p = (c.catalog.settings y p).map fun values =>
      ⟨⟨[], [.className (c.catalog.className y)]⟩, values, []⟩ := by
  obtain ⟨hflat, hrules⟩ := Bool.and_eq_true_iff.1 hplain
  rw [rivals, hsheet, Catalog.settings_eq_flatMap hsheet, map_flatMap]
  dsimp only
  rw [Stylesheet.conditionalRules, rulesUnder_of_flat hflat, flatMap_map]
  refine flatMap_congr fun r hr => ?_
  obtain ⟨key, x, hx⟩ := hstyles r hr
  rw [rivalsIn_eq hx (all_eq_true.1 hrules r hr) rfl hp, apply_ite (map _)]
  simp [hx.mem_keysOf_iff]

end Job

/-! ## Shared properties -/

theorem getD_lookup_filterMap {κ α : Type} [BEq κ] [LawfulBEq κ] (v : κ → List α) (k : κ)
    (keys : List κ) : ((keys.filterMap fun j => if (v j).isEmpty then none else
      some (j, v j)).lookup k).getD [] = if keys.contains k then v k else [] := by
  induction keys with
  | nil => rfl
  | cons j keys ih =>
    by_cases hj : k = j
    · subst hj
      by_cases hv : (v k).isEmpty = true
      · rw [filterMap_cons_none (by simp [hv]), ih]
        simp [List.isEmpty_iff.1 hv]
      · rw [filterMap_cons_some (b := (k, v k)) (by simp [hv]), lookup_cons_self]
        simp
    · have hcontains : (j :: keys).contains k = keys.contains k := by simp [hj]
      rw [hcontains, ← ih]
      by_cases hv : (v j).isEmpty = true
      · rw [filterMap_cons_none (by simp [hv])]
      · rw [filterMap_cons_some (b := (j, v j)) (by simp [hv]), lookup_cons, beq_false_of_ne hj]

theorem mem_sharedPropertiesFor {g : Catalog} {a b : ObjectId} {t : StyleObject}
    (ha : g.object? a = some s) (hb : g.object? b = some t) {pseudo : Option String} {q : String} :
    q ∈ sharedPropertiesFor g a b pseudo ↔
      q ∈ s.contributions.touched pseudo ∧ q ∈ t.contributions.touched pseudo := by
  rw [sharedPropertiesFor, sharedProperties, ha, hb]
  rw [getD_lookup_filterMap (fun pseudo => (s.contributions.touched pseudo).filter
    (t.contributions.touched pseudo).contains)]
  split
  · simp
  rename_i hkey
  -- what nothing is said about is not touched
  have hnone : q ∉ s.contributions.touched pseudo := fun hq =>
    hkey (contains_iff_mem.2 (Contributions.mem_pseudoKeys_of_mem_touched hq))
  simp [hnone]

theorem not_language_of_lowercase {p q : String} (h : lowercase q = lowercase p)
    (hp : languageProperties.contains (lowercase p) = false) :
    languageProperties.contains q = false := by
  have hlower : ∀ q ∈ languageProperties, lowercase q = q := by decide +kernel
  rw [← Bool.not_eq_true, contains_iff_mem] at hp ⊢
  intro hq
  rw [← h, hlower q hq] at hp
  exact hp hq

theorem covered_lowercase (h : covered p = [lowercase p]) :
    covered (lowercase p) = [lowercase (lowercase p)] := by
  rw [covered_congr (lowercase_lowercase p), h, lowercase_lowercase]

namespace Workspace.Sound

variable {loading : List String} {w : Workspace} {x t : ObjectId}

section

variable (h : w.Sound loading) (hsheet : (w.catalog.block x.block).stylesheet = some sheet)
  (hplain : sheet.isPlain = true) (hs : w.catalog.object? x = some s)

include h hsheet hplain hs

theorem mem_touched_iff : p ∈ s.contributions.touched none ↔
      ∃ r ∈ sheet.rules, (x, none) ∈ (w.catalog.block x.block).keysOf r ∧ ∃ d ∈ r.declarations,
        languageProperties.contains d.property = false ∧ lowercase d.property = p := by
  have hcovered : ∀ r ∈ sheet.rules, ∀ d ∈ r.declarations,
      (p ∈ covered d.property ↔ lowercase d.property = p) := by
    intro r hr d hd
    rw [covered_of_isPlain
      (Stylesheet.declarations_of_isPlain hplain hr d hd), mem_singleton, eq_comm]
  rw [Contributions.mem_touched]
  constructor
  · rintro ⟨d, hd, hp⟩
    obtain ⟨r, hr, hx, hd⟩ := (h.mem_declarationsFor_iff hsheet hs).1 hd
    obtain ⟨hd, hconcrete⟩ := mem_filter.1 hd
    have hlanguage : languageProperties.contains d.property = false := by
      simpa using (Bool.and_eq_true_iff.1 hconcrete).1
    exact ⟨r, hr, hx, d, hd, hlanguage, (hcovered r hr d hd).1 hp⟩
  · rintro ⟨r, hr, hx, d, hd, hlanguage, hp⟩
    have hasks := asksResolution_of_isPlain (Stylesheet.declarations_of_isPlain hplain hr d hd)
    have hconcrete : d ∈ BlockReader.concreteDeclarations r :=
      mem_filter.2 ⟨hd, by simpa [hasks] using hlanguage⟩
    exact ⟨d, (h.mem_declarationsFor_iff hsheet hs).2 ⟨r, hr, hx, hconcrete⟩,
      (hcovered r hr d hd).2 hp⟩

theorem lowercase_mem_touched_iff (hlanguage : languageProperties.contains (lowercase p) = false) :
    lowercase p ∈ s.contributions.touched none ↔ w.catalog.settings x p ≠ [] := by
  rw [h.mem_touched_iff hsheet hplain hs, Catalog.settings_ne_nil_iff hsheet]
  refine exists_congr fun r => and_congr_right fun _ => and_congr_right fun _ => ?_
  constructor
  · rintro ⟨d, hd, -, hp⟩
    exact ne_nil_of_mem (Rule.mem_setting.2 ⟨hd, hp⟩)
  · intro hne
    obtain ⟨d, hd⟩ := exists_mem_of_ne_nil _ hne
    obtain ⟨hd, hp⟩ := Rule.mem_setting.1 hd
    exact ⟨d, hd, not_language_of_lowercase hp hlanguage, hp⟩

end

theorem any_overlaps_iff (h : w.Sound loading) {sheet' : Stylesheet}
    (hx : (w.catalog.block x.block).stylesheet = some sheet) (hplain : sheet.isPlain = true)
    (hxi : x.index < (w.catalog.block x.block).objects.length)
    (ht : (w.catalog.block t.block).stylesheet = some sheet') (hplain' : sheet'.isPlain = true)
    (hti : t.index < (w.catalog.block t.block).objects.length)
    (hp : covered p = [lowercase p])
    (hlanguage : languageProperties.contains (lowercase p) = false) :
    (sharedPropertiesFor w.catalog x t none).any (overlaps · p) = true ↔
      w.catalog.settings x p ≠ [] ∧ w.catalog.settings t p ≠ [] := by
  have hxs : w.catalog.object? x = some _ := getElem?_eq_getElem hxi
  have hts : w.catalog.object? t = some _ := getElem?_eq_getElem hti
  rw [← h.lowercase_mem_touched_iff hx hplain hxs hlanguage,
    ← h.lowercase_mem_touched_iff ht hplain' hts hlanguage, ← mem_sharedPropertiesFor hxs hts,
    any_eq_true]
  constructor
  · rintro ⟨q, hq, hoverlaps⟩
    obtain ⟨r, hr, -, d, hd, -, rfl⟩ :=
      (h.mem_touched_iff hx hplain hxs).1 ((mem_sharedPropertiesFor hxs hts).1 hq).1
    have hcovered := covered_of_isPlain (Stylesheet.declarations_of_isPlain hplain hr d hd)
    rw [overlaps_eq (covered_lowercase hcovered) hp, sameIgnoringCase_iff,
      lowercase_lowercase] at hoverlaps
    rwa [← hoverlaps]
  · intro hmem
    refine ⟨lowercase p, hmem, ?_⟩
    rw [overlaps_eq (covered_lowercase hp) hp, sameIgnoringCase_iff, lowercase_lowercase]

end Workspace.Sound

/-! ## Resolutions -/

namespace Injections

variable {conflict : InheritedConflict} {i : Injections}

/-- Every property that is settled has a resolution. -/
def Settles (conflict : InheritedConflict) (i : Injections) : Prop :=
  ∀ q, (conflict.pseudo, q) ∈ i.settled → ∃ e ∈ i.found, e.property = q

theorem settles_addDeclaration (h : i.Settles conflict) {d : Declaration}
    (hd : d.asksResolution = false) : (i.addDeclaration [] conflict d).Settles conflict ∧
      ((∃ e ∈ (i.addDeclaration [] conflict d).found, e.property = p) ↔
        (∃ e ∈ i.found, e.property = p) ∨
          d.property = p ∧ conflict.properties.any (overlaps · p) = true) := by
  unfold addDeclaration
  rw [hd]
  simp only [Bool.false_or, any_nil, Bool.or_false, Bool.or_eq_true, Bool.not_eq_true',
    decide_eq_true_eq]
  split
  · rename_i hskip
    refine ⟨h, or_iff_left_of_imp ?_ |>.symm⟩
    rintro ⟨rfl, hshared⟩
    rcases hskip with hskip | hskip
    · rw [hskip] at hshared
      cases hshared
    · exact h _ hskip
  · rename_i hskip
    push Not at hskip
    have hshared : conflict.properties.any (overlaps · d.property) = true := by
      simpa using hskip.1
    split
    · rename_i hfound
      obtain ⟨e, he, hsame⟩ := any_eq_true.1 hfound
      have hproperty : e.property = d.property := by
        simpa using (Bool.and_eq_true_iff.1 hsame).1
      refine ⟨fun q hq => ?_, or_iff_left_of_imp ?_ |>.symm⟩
      · rcases mem_cons.1 hq with hq | hq
        · obtain rfl : q = d.property := congrArg Prod.snd hq
          exact ⟨e, he, hproperty⟩
        · exact h q hq
      · rintro ⟨rfl, -⟩
        exact ⟨e, he, hproperty⟩
    · refine ⟨fun q hq => ?_, ?_⟩
      · rcases mem_cons.1 hq with hq | hq
        · obtain rfl : q = d.property := congrArg Prod.snd hq
          exact ⟨_, mem_append_right _ (mem_singleton.2 rfl), rfl⟩
        · obtain ⟨e, he, heq⟩ := h q hq
          exact ⟨e, mem_append_left _ he, heq⟩
      constructor
      · rintro ⟨e, he, rfl⟩
        rcases mem_append.1 he with he | he
        · exact .inl ⟨e, he, rfl⟩
        · rw [mem_singleton.1 he]
          exact .inr ⟨rfl, hshared⟩
      · rintro (⟨e, he, rfl⟩ | ⟨rfl, -⟩)
        · exact ⟨e, mem_append_left _ he, rfl⟩
        · exact ⟨_, mem_append_right _ (mem_singleton.2 rfl), rfl⟩

theorem settles_foldl (h : i.Settles conflict) {ds : List Declaration}
    (hds : ∀ d ∈ ds, d.asksResolution = false) :
    (∃ e ∈ (ds.foldl (addDeclaration [] conflict) i).found, e.property = p) ↔
      (∃ e ∈ i.found, e.property = p) ∨
        (∃ d ∈ ds, d.property = p) ∧ conflict.properties.any (overlaps · p) = true := by
  induction ds generalizing i with
  | nil => simp
  | cons d ds ih =>
    obtain ⟨hsettles, hiff⟩ := settles_addDeclaration (p := p) h (hds d (by simp))
    rw [foldl_cons, ih hsettles fun d' hd' => hds d' (by simp [hd']), hiff]
    constructor
    · rintro ((he | ⟨hd, hshared⟩) | ⟨⟨d', hd', hp⟩, hshared⟩)
      · exact .inl he
      · exact .inr ⟨⟨d, by simp, hd⟩, hshared⟩
      · exact .inr ⟨⟨d', by simp [hd'], hp⟩, hshared⟩
    · rintro (he | ⟨⟨d', hd', hp⟩, hshared⟩)
      · exact .inl (.inl he)
      · rcases mem_cons.1 hd' with rfl | hd'
        · exact .inl (.inr ⟨hp, hshared⟩)
        · exact .inr ⟨⟨d', hd', hp⟩, hshared⟩

end Injections

/-- **For which properties a plain rule is given resolutions**: those that the rule declares, if they
are shared with the object that the rule's object overrides. -/
theorem Job.exists_injection_iff {c : Job} {x : ObjectId} (h : c.catalog.Styles c.block r key x)
    (hplain : ∀ d ∈ r.declarations, d.isPlain = true) :
    (∃ e ∈ c.injectionsFor r [⟨[], key⟩], e.property = p) ↔
      r.declared p ≠ [] ∧ ∃ t, c.catalog.overridden? x = some t ∧
        (sharedPropertiesFor c.catalog x t none).any (overlaps · p) = true := by
  have hasks : ∀ d ∈ r.declarations, d.asksResolution = false :=
    fun d hd => asksResolution_of_isPlain (hplain d hd)
  have hexplicit : r.declarations.filter asksResolution = [] :=
    filter_eq_nil_iff.2 fun d hd => by simp [hasks d hd]
  have hdeclared : r.declared p ≠ [] ↔ ∃ d ∈ r.declarations, d.property = p := by
    simp [Rule.declared]
  have hkey : c.keyObject? ⟨[], key⟩ = some x := h.names
  have hconflict : c.inheritedConflict? ⟨[], key⟩ = (c.catalog.overridden? x).map fun t =>
      ⟨sharedPropertiesFor c.catalog x t none, none, c.resolutionTo t⟩ := by
    rw [inheritedConflict?, hkey]
    dsimp only [bind, Option.bind]
    rw [h.pseudo]
    cases c.catalog.overridden? x <;> rfl
  rw [injectionsFor, hexplicit, hdeclared]
  cases ht : c.catalog.overridden? x with
  | none =>
    rw [ht] at hconflict
    simp [hconflict]
  | some t =>
    rw [ht, Option.map_some] at hconflict
    rw [filterMap_cons_some hconflict, filterMap_nil, foldl_cons, foldl_nil,
      map_nil, Injections.settles_foldl (fun q hq => by cases hq) hasks]
    simp

end StyleBlocks
