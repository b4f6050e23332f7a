import StyleBlocks.Proofs.Compilation.Settings
import StyleBlocks.Proofs.Session.OutputClasses

/-!
# What the rules of plain stylesheets emit

A plain rule is given a resolution for each property that its object shares with the object that it
overrides.  Each of these resolutions stands before the rule's own values, so the rules that are
emitted for it have the own values.  There are some exactly if the values of a setting of an
overridden object differ.

Main result: `Workspace.Sound.exists_emission_iff`.
-/

namespace StyleBlocks

open List Declaration

variable {other own : List Declaration} {c : Job} {p : String}

/-! ## Settings that contradict each other -/

/-- What a declaration sets, and to which value. -/
def Declaration.entry (d : Declaration) : String × String :=
  (d.property, d.value)

def differ (own other : List Declaration) : Bool :=
  own.map Declaration.entry != other.map Declaration.entry

theorem all_agrees_iff (hp : ∀ d ∈ own, d.important = false)
    (hp' : ∀ d ∈ other, d.important = false) :
    (own.length == other.length && (own.zip other).all fun (a, b) => a.agrees b) = true ↔
      own.map entry = other.map entry := by
  induction own generalizing other with
  | nil => cases other <;> simp
  | cons a own ih =>
    cases other with
    | nil => simp
    | cons b other =>
      have ih := ih (fun d hd => hp d (mem_cons_of_mem a hd)) fun d hd =>
        hp' d (mem_cons_of_mem b hd)
      simp only [length_cons, zip_cons_cons, all_cons, agrees,
        hp a (by simp), hp' b (by simp), Bool.and_eq_true, beq_iff_eq, map_cons,
        List.cons.injEq, entry, Prod.mk.injEq, ← ih]
      constructor
      · rintro ⟨hlength, ⟨hentry, -⟩, hrest⟩
        exact ⟨hentry, by omega, hrest⟩
      · rintro ⟨hentry, hlength, hrest⟩
        exact ⟨by omega, ⟨hentry, trivial⟩, hrest⟩

theorem clashOf_eq (hown : own ≠ []) (hother : other ≠ []) (hp : ∀ d ∈ own, d.important = false)
    (hp' : ∀ d ∈ other, d.important = false) :
    clashOf own other = if differ own other then .conflict else .sameValues := by
  have hempty : (own.isEmpty || other.isEmpty) = false := by
    simp [hown, hother]
  rw [clashOf, hempty, if_neg (by simp)]
  by_cases hvalues : own.map entry = other.map entry
  · rw [if_pos ((all_agrees_iff hp hp').2 hvalues), differ, hvalues]
    simp
  · rw [if_neg fun h => hvalues ((all_agrees_iff hp hp').1 h), differ,
      if_pos (by simpa using hvalues)]

namespace Job

variable {q : Request} {cx cy p : String}

def classSelector (name : String) : Selector :=
  ⟨[], [.className name]⟩

def pairSelector (name name' : String) : Selector :=
  ⟨[], [.className name, .className name']⟩

theorem mergeSelectors_classes (h : cx ≠ cy) :
    mergeSelectors (classSelector cx) (classSelector cy) = .ok [pairSelector cx cy] := by
  have hne : cy ≠ cx := fun heq => h heq.symm
  simp [mergeSelectors, mergeSelectors.join, classSelector, pairSelector, Selector.split,
    Selector.single, mergeCompounds, unionCompounds, Compound.pseudoElement?,
    Simple.isPseudoElement, hne]

theorem verdict_emission?_eq (h : cx ≠ cy) :
    (c.verdict q [classSelector cx] own ⟨classSelector cy, other, []⟩).1 = clashOf own other ∧
    c.emission? q [classSelector cx] own false ⟨classSelector cy, other, []⟩
      = if clashOf own other = .conflict then some ⟨[], [(pairSelector cx cy).render], own⟩
        else none := by
  have haccepts : Rival.Accepts ⟨classSelector cy, other, []⟩ [classSelector cx] := by
    intro s hs
    rw [mem_singleton.1 (mem_of_mem_filter hs)]
    exact ⟨_, mergeSelectors_classes h⟩
  have htexts : Rival.mergedTexts ⟨classSelector cy, other, []⟩ [classSelector cx]
      = [(pairSelector cx cy).render] := by
    change (([classSelector cx].map fun s => (mergeSelectors s (classSelector cy)).toOption.getD
      []).flatten.map Selector.render).eraseDups = _
    rw [map_singleton, mergeSelectors_classes h]
    rfl
  refine ⟨verdict_fst_eq fun _ => haccepts, (emission?_eq_answer? fun _ => haccepts).trans ?_⟩
  rw [Rival.answer?, htexts]
  exact if_congr (and_iff_left (cons_ne_nil _ _)) rfl rfl

/-- **What one resolution makes a rule emit**: rules for its own class and that of an overridden
object, with its own values.  There are some exactly if a setting of an overridden object
differs. -/
theorem emissionsAlong_ne_nil_iff {targets : List ObjectId} (hown : own ≠ [])
    (hp : ∀ d ∈ own, d.important = false) (hq : q.declaration.property = p)
    (hne : ∀ y ∈ targets, cx ≠ c.catalog.className y)
    (hrivals : ∀ y ∈ targets, c.rivals y p = (c.catalog.settings y p).map fun values =>
      ⟨classSelector (c.catalog.className y), values, []⟩)
    (hsettings : ∀ y ∈ targets, ∀ other ∈ c.catalog.settings y p,
      other ≠ [] ∧ ∀ d ∈ other, d.important = false) :
    (∀ e ∈ c.emissionsAlong q [classSelector cx] own false targets, ∃ y ∈ targets,
      e = ⟨[], [(pairSelector cx (c.catalog.className y)).render], own⟩) ∧
    (c.emissionsAlong q [classSelector cx] own false targets ≠ [] ↔
      ∃ y ∈ targets, ∃ other ∈ c.catalog.settings y p, differ own other = true) := by
  have hclash : ∀ y ∈ targets, ∀ other ∈ c.catalog.settings y p,
      (clashOf own other = .conflict ↔ differ own other = true) := by
    intro y hy other hother
    obtain ⟨hne', hp'⟩ := hsettings y hy other hother
    rw [clashOf_eq hown hne' hp hp']
    cases differ own other <;> simp
  -- what the settings of one object emit, and whether it is the last one that is asked
  have hemission : ∀ y ∈ targets, ∀ e, e ∈ (c.rivals y p).filterMap
      (c.emission? q [classSelector cx] own false) ↔
      (∃ other ∈ c.catalog.settings y p, differ own other = true) ∧
        e = ⟨[], [(pairSelector cx (c.catalog.className y)).render], own⟩ := by
    intro y hy e
    rw [hrivals y hy, filterMap_map, mem_filterMap, ← exists_and_right]
    refine exists_congr fun other => ?_
    rw [and_assoc]
    refine and_congr_right fun hother => ?_
    rw [Function.comp_apply, (verdict_emission?_eq (hne y hy)).2, Option.ite_none_right_eq_some,
      hclash y hy other hother, Option.some.injEq, eq_comm (a := e)]
  have hcontradicts : ∀ y ∈ targets, c.contradicts q [classSelector cx] own y = true ↔
      ∃ other ∈ c.catalog.settings y p, differ own other = true := by
    intro y hy
    rw [contradicts, beq_iff_eq, levelClash, foldl_join_eq_conflict, hq, hrivals y hy]
    simp only [reduceCtorEq, false_or, mem_map, exists_exists_and_eq_and,
      (verdict_emission?_eq (hne y hy)).1]
    exact exists_congr fun other => and_congr_right (hclash y hy other)
  rw [emissionsAlong_eq, hq]
  cases hfind : targets.find? (c.contradicts q [classSelector cx] own) with
  | none =>
    refine ⟨by simp, iff_of_false (by simp) ?_⟩
    rintro ⟨y, hy, hdiffer⟩
    exact find?_eq_none.1 hfind y hy ((hcontradicts y hy).2 hdiffer)
  | some y =>
    have hy := mem_of_find?_eq_some hfind
    have hdiffer := (hcontradicts y hy).1 (find?_some hfind)
    rw [Option.toList_some, flatMap_singleton]
    exact ⟨fun e he => ⟨y, hy, ((hemission y hy e).1 he).2⟩,
      iff_of_true (ne_nil_of_mem ((hemission y hy _).2 ⟨hdiffer, rfl⟩)) ⟨y, hy, hdiffer⟩⟩

/-! ## The resolutions of a plain rule -/

/-- The request that a node in a given place of a body makes. -/
def request? (a : Node × Nat) : Option Request :=
  match a.1 with
  | .declaration d =>
    match Resolution.parse d.value with
    | .ok (some resolution) => some ⟨a.2, d, resolution⟩
    | _ => none
  | _ => none

theorem request?_eq_some {a : Node × Nat} : request? a = some q ↔
    a = (.declaration q.declaration, q.index) ∧
      Resolution.parse q.declaration.value = .ok (some q.resolution) := by
  obtain ⟨node, i⟩ := a
  cases node with
  | declaration d =>
    simp only [request?, Prod.mk.injEq, Node.declaration.injEq]
    constructor
    · intro h
      split at h
      · rename_i resolution hparse
        cases h
        exact ⟨⟨rfl, rfl⟩, hparse⟩
      · cases h
    · rintro ⟨⟨rfl, rfl⟩, hparse⟩
      rw [hparse]
  | _ => simp [request?]

theorem requests_eq {rule : Rule} (h : ∀ d ∈ rule.declarations, ∃ o, Resolution.parse d.value = .ok o) :
    c.requests rule = .ok (rule.body.zipIdx.filterMap request?) := by
  unfold requests
  rw [mapM_eq_ok (g := request?)]
  · show Except.ok ((rule.body.zipIdx.map request?).filterMap id) = _
    rw [filterMap_map]
    rfl
  rintro ⟨node, i⟩ hnode
  cases node with
  | declaration d =>
    have hd : d ∈ rule.declarations :=
      mem_filterMap.2 ⟨_, (mem_zipIdx' hnode).2 ▸ getElem_mem _, rfl⟩
    obtain ⟨_ | resolution, ho⟩ := h d hd <;> simp [request?, ho]
  | _ => rfl

theorem map_snd_ownValues (rule : Rule) (p : String) : (ownValues rule p).map Prod.snd
    = rule.declarations.filter fun d => decide (d.property = p) && !d.asksResolution := by
  rw [ownValues, Rule.declarations]
  generalize 0 = k
  induction rule.body generalizing k with
  | nil => rfl
  | cons node body ih =>
    rw [zipIdx_cons]
    cases node with
    | declaration d =>
      simp only [filterMap_cons, Node.declaration?, filter_cons]
      split
      · rename_i hnone
        have hd : (decide (d.property = p) && !d.asksResolution) = false := by
          by_contra hd
          rw [if_pos (by simpa using hd)] at hnone
          cases hnone
        rw [ih, if_neg (by simp [hd])]
      · rename_i o hsome
        split at hsome
        · rename_i hd
          cases hsome
          rw [map_cons, ih, if_pos hd]
        · cases hsome
    | _ => exact ih (k + 1)

/-- The rule begins with resolutions of one reference and asks for nothing else. -/
structure BeginsWith (rule : Rule) (injected : List Declaration) (reference : String)
    (rest : List Node) : Prop where
  body : rule.body = injected.map .declaration ++ rest
  injected : ∀ d ∈ injected, Resolution.parse d.value = .ok (some ⟨true, reference⟩)
  rest : ∀ d ∈ rest.filterMap Node.declaration?, Resolution.parse d.value = .ok none

namespace BeginsWith

variable {rule : Rule} {injected : List Declaration} {reference : String} {rest : List Node}
  (h : BeginsWith rule injected reference rest)

include h

theorem getElem? {i : Nat} {d : Declaration} (hi : rule.body[i]? = some (.declaration d)) :
    i < injected.length ∧ d ∈ injected ∨ injected.length ≤ i ∧ d ∈ rest.filterMap Node.declaration? := by
  rw [h.body] at hi
  by_cases hlt : i < injected.length
  · rw [getElem?_append_left (by simpa using hlt), getElem?_map] at hi
    obtain ⟨e, he, heq⟩ := Option.map_eq_some_iff.1 hi
    cases heq
    exact .inl ⟨hlt, mem_of_getElem? he⟩
  · rw [getElem?_append_right (by simpa using hlt)] at hi
    exact .inr ⟨by omega, mem_filterMap.2 ⟨_, mem_of_getElem? hi, rfl⟩⟩

theorem declarations : rule.declarations = injected ++ rest.filterMap Node.declaration? := by
  rw [Rule.declarations, h.body, filterMap_append, filterMap_declarations]

theorem requests : ∃ requests,
    c.requests rule = .ok requests ∧
    (∀ q ∈ requests, q.index < injected.length ∧ q.declaration ∈ injected ∧
      q.resolution = ⟨true, reference⟩) ∧
    ∀ d ∈ injected, ∃ q ∈ requests, q.declaration = d := by
  refine ⟨_, requests_eq fun d hd => ?_, fun q hq => ?_, fun d hd => ?_⟩
  · rw [h.declarations] at hd
    rcases mem_append.1 hd with hd | hd
    · exact ⟨_, h.injected d hd⟩
    · exact ⟨_, h.rest d hd⟩
  · obtain ⟨a, ha, hq⟩ := mem_filterMap.1 hq
    obtain ⟨rfl, hparse⟩ := request?_eq_some.1 hq
    rcases h.getElem? (mem_zipIdx_iff_getElem?.1 ha) with ⟨hlt, hd⟩ | ⟨-, hd⟩
    · have hresolution := (h.injected _ hd).symm.trans hparse
      exact ⟨hlt, hd, (Option.some.inj (Except.ok.inj hresolution)).symm⟩
    · rw [h.rest _ hd] at hparse
      cases hparse
  · obtain ⟨i, hi⟩ := mem_iff_getElem?.1 hd
    obtain ⟨hlt, -⟩ := List.getElem?_eq_some_iff.1 hi
    have hbody : rule.body[i]? = some (.declaration d) := by
      rw [h.body, getElem?_append_left (by simpa using hlt), getElem?_map, hi]
      rfl
    exact ⟨⟨i, d, ⟨true, reference⟩⟩, mem_filterMap.2 ⟨_, mem_zipIdx_iff_getElem?.2 hbody,
      request?_eq_some.2 ⟨rfl, h.injected d hd⟩⟩, rfl⟩

theorem ownValues (p : String) :
    (Job.ownValues rule p).map Prod.snd
      = (rest.filterMap Node.declaration?).filter (·.property = p) ∧
    ∀ o ∈ Job.ownValues rule p, injected.length ≤ o.1 := by
  have hasks : ∀ d ∈ injected, d.asksResolution = true := by
    intro d hd
    rw [asksResolution, h.injected d hd]
  have hconcrete : ∀ d ∈ rest.filterMap Node.declaration?, d.asksResolution = false := by
    intro d hd
    rw [asksResolution, h.rest d hd]
  constructor
  · rw [map_snd_ownValues, h.declarations, filter_append, filter_eq_nil_iff.2, nil_append]
    · refine filter_congr fun d hd => ?_
      rw [hconcrete d hd, Bool.not_false, Bool.and_true]
    · intro d hd
      simp [hasks d hd]
  · intro o ho
    obtain ⟨⟨node, i⟩, hmem, ho'⟩ := mem_filterMap.1 ho
    have hasks' := asksResolution_of_mem_ownValues ho
    dsimp only at ho'
    split at ho'
    · rename_i d
      split at ho'
      · cases ho'
        rcases h.getElem? (mem_zipIdx_iff_getElem?.1 hmem) with ⟨-, hd⟩ | ⟨hle, -⟩
        · rw [hasks d hd] at hasks'
          cases hasks'
        · exact hle
      · cases ho'
    · cases ho'

theorem emissionsFor {t : ObjectId} (hmeans : c.catalog.lookup c.block reference = some t)
    (ht : t.block ≠ c.block) {selectors : List Selector} (hindex : q.index < injected.length)
    (hresolution : q.resolution = ⟨true, reference⟩)
    (hown : (rest.filterMap Node.declaration?).filter (·.property = q.declaration.property) ≠ []) :
    c.emissionsFor rule selectors q = c.emissionsAlong q selectors
      ((rest.filterMap Node.declaration?).filter (·.property = q.declaration.property)) false
      (c.catalog.lineage t) := by
  obtain ⟨hvalues, hbehind⟩ := h.ownValues q.declaration.property
  have hoverride : c.isOverride q (Job.ownValues rule q.declaration.property) = .ok false := by
    have hbefore : (Job.ownValues rule q.declaration.property).any (·.1 < q.index) = false := by
      refine any_eq_false.2 fun o ho => ?_
      have := hbehind o ho
      simp only [decide_eq_true_eq]
      omega
    have hafter : (Job.ownValues rule q.declaration.property).any (q.index ≤ ·.1) = true := by
      rw [← hvalues] at hown
      obtain ⟨o, ho⟩ := exists_mem_of_ne_nil _ fun hnil => hown (map_eq_nil_iff.2 hnil)
      have := hbehind o ho
      exact any_eq_true.2 ⟨o, ho, decide_eq_true (by omega)⟩
    simp [isOverride, hbefore, hafter]
  have htarget : c.resolutionTarget q = .ok t := by
    obtain ⟨path, hpath, hnamed⟩ := Option.bind_eq_some_iff.1 hmeans
    unfold resolutionTarget
    rw [hresolution, except_toOption_some hpath]
    simp [hnamed, ht]
  rw [Job.emissionsFor, hoverride, htarget]
  rw [hvalues]

end BeginsWith

end Job

/-! ## Plain chains -/

namespace Catalog

/-- The setting of an object for a property is contradicted: the object overrides one that has the
property as well, and a setting of an overridden object differs. -/
def clashes (g : Catalog) (x : ObjectId) (property : String) (own : List Declaration) : Bool :=
  match g.overridden? x with
  | none => false
  | some t => !(g.settings t property).isEmpty &&
    (g.lineage t).any fun y => (g.settings y property).any (differ own)

/-- The block `n` and its ancestors have plain stylesheets, and the references to objects that their
own ones override mean these. -/
structure PlainChain (g : Catalog) (n : Nat) : Prop where
  plain : ∀ m ∈ n :: g.ancestors n, ∃ sheet, (g.block m).stylesheet = some sheet ∧
    sheet.isPlain = true
  readsBack : ∀ m ∈ n :: g.ancestors n, ∀ sheet, (g.block m).stylesheet = some sheet →
    ∀ x t, x.block = m → x.index < (g.block m).objects.length → g.overridden? x = some t →
      (g.job m sheet).ReadsBack t

variable {g : Catalog} {n : Nat} {x : ObjectId} {sheet : Stylesheet}

theorem PlainChain.isPlain (h : g.PlainChain n) (hsheet : (g.block n).stylesheet = some sheet) :
    sheet.isPlain = true := by
  obtain ⟨sheet', hsheet', hplain⟩ := h.plain n (by simp)
  rwa [Option.some.inj (hsheet.symm.trans hsheet')]

theorem important_of_mem_settings (h : (g.block x.block).stylesheet = some sheet)
    (hplain : sheet.isPlain = true) (hown : own ∈ g.settings x p) :
    ∀ d ∈ own, d.important = false := by
  rw [settings_eq_flatMap h] at hown
  obtain ⟨r, hr, hown⟩ := mem_flatMap.1 hown
  split at hown
  · intro d hd
    rw [mem_singleton.1 hown] at hd
    have hplain := Stylesheet.declarations_of_isPlain hplain hr d (Rule.mem_setting.1 hd).1
    exact (isPlain_iff.1 hplain).2.1
  · cases hown

theorem clashes_iff : g.clashes x p own = true ↔
    ∃ t, g.overridden? x = some t ∧ g.settings t p ≠ [] ∧
      ∃ y ∈ g.lineage t, ∃ other ∈ g.settings y p, differ own other = true := by
  unfold clashes
  cases g.overridden? x with
  | none | some t => simp

end Catalog

namespace Workspace.Sound

variable {loading : List String} {w : Workspace} {n : Nat} {x y t : ObjectId}

theorem mem_ancestors_of_mem (h : w.Sound loading) (hn : (w.catalog.block n).IsComplete) {m k : Nat}
    (hm : m ∈ w.catalog.ancestors n) (hk : k ∈ m :: w.catalog.ancestors m) :
    k ∈ w.catalog.ancestors n := by
  obtain ⟨l₁, l₂, hl, hchain⟩ := (h.chain hn).1.suffix hm
  rw [(h.chain ((h.chain hn).2 m hm)).1.unique hchain] at hk
  rw [hl]
  exact mem_append_right l₁ hk

theorem mem_chain_of_mem (h : w.Sound loading) (hn : (w.catalog.block n).IsComplete) {m k : Nat}
    (hm : m ∈ n :: w.catalog.ancestors n) (hk : k ∈ m :: w.catalog.ancestors m) :
    k ∈ n :: w.catalog.ancestors n := by
  rcases mem_cons.1 hm with rfl | hm
  · exact hk
  · exact mem_cons_of_mem n (h.mem_ancestors_of_mem hn hm hk)

theorem plainChain_of_mem (h : w.Sound loading) (hn : (w.catalog.block n).IsComplete)
    (hplain : w.catalog.PlainChain n) {m : Nat} (hm : m ∈ n :: w.catalog.ancestors n) :
    w.catalog.PlainChain m := by
  have hsub : ∀ k ∈ m :: w.catalog.ancestors m, k ∈ n :: w.catalog.ancestors n :=
    fun k hk => h.mem_chain_of_mem hn hm hk
  exact ⟨fun k hk => hplain.plain k (hsub k hk), fun k hk => hplain.readsBack k (hsub k hk)⟩

theorem of_mem_lineage_overridden (h : w.Sound loading) (hx : w.catalog.Holds x)
    (ht : w.catalog.overridden? x = some t) (hy : y ∈ w.catalog.lineage t) :
    w.catalog.Holds y ∧ y.block ∈ w.catalog.ancestors x.block ∧
      w.catalog.className x ≠ w.catalog.className y := by
  obtain ⟨hchain, hcomplete⟩ := h.chain hx.isComplete
  obtain ⟨htblock, hti, htpath⟩ := h.overridden hx.isComplete ht
  have hheld : w.catalog.Holds t := ⟨hcomplete _ htblock, hti⟩
  obtain ⟨hyheld, hypath⟩ := h.of_mem_lineage hheld hy
  have hyblock : y.block ∈ w.catalog.ancestors x.block :=
    h.mem_ancestors_of_mem hx.isComplete htblock ((h.mem_lineage hheld).1 hy).1
  refine ⟨hyheld, hyblock, h.className_ne hx.isComplete hyheld.isComplete ?_ ?_⟩
  · intro heq
    rw [← heq] at hyblock
    exact hchain.notMem hyblock
  · rw [hypath, htpath]

theorem rivals_eq (h : w.Sound loading) (hplain : w.catalog.PlainChain n)
    (hy : y.block ∈ n :: w.catalog.ancestors n) (hp : covered p = [lowercase p])
    (hc : c.catalog = w.catalog) : c.rivals y p = (w.catalog.settings y p).map fun values =>
      ⟨Job.classSelector (w.catalog.className y), values, []⟩ := by
  obtain ⟨sheet, hsheet, hsheetPlain⟩ := hplain.plain _ hy
  rw [← hc] at hsheet ⊢
  refine Job.rivals_eq hsheet hsheetPlain (fun r hr => ?_) hp
  rw [hc] at hsheet ⊢
  exact h.exists_styles hsheet hr (Stylesheet.isPlain_of_mem hsheetPlain hr)

end Workspace.Sound

namespace Job

/-- A plain rule for the object `x` from which the block language was taken, and the rule that the
walks make of it. -/
structure WalksTo (c : Job) (r r' : Rule) (key : Compound) (x : ObjectId) : Prop where
  styles : c.catalog.Styles c.block r key x
  plain : ∀ d ∈ r.declarations, d.isPlain = true
  language : ∀ d ∈ r.declarations, languageProperties.contains d.property = false
  settings : ∀ p, r.setting p ≠ [] → c.catalog.settings x p ≠ []
  unnested : rulesOf r.body = []
  compiled : ∃ compiled, c.CompiledTo r r' [⟨[], key⟩] compiled

namespace WalksTo

variable {r r' : Rule} {key : Compound} {x t : ObjectId}

theorem selector (h : c.WalksTo r r' key x) :
    r'.selector = (classSelector (c.catalog.className x)).render := by
  obtain ⟨compiled, hcompiled⟩ := h.compiled
  have hone : [Selector.mk [] key].mapM (c.catalog.compileSelector c.block)
      = .ok [classSelector (c.catalog.className x)] := by
    rw [mapM_cons, h.styles.compile]
    rfl
  obtain rfl := Except.ok.inj (hcompiled.compile.symm.trans hone)
  exact hcompiled.selector

theorem body (h : c.WalksTo r r' key x) :
    r'.body = (c.injectionsFor r [⟨[], key⟩]).map .declaration ++ r.body := by
  obtain ⟨compiled, hcompiled⟩ := h.compiled
  exact hcompiled.body h.unnested

theorem value_of_mem (h : c.WalksTo r r' key x) {e : Declaration}
    (he : e ∈ c.injectionsFor r [⟨[], key⟩]) :
    ∃ t, c.catalog.overridden? x = some t ∧ e.value = c.resolutionTo t := by
  obtain ⟨s, hs, x', t, hx', ht, hvalue⟩ := mem_injectionsFor he
  rw [mem_singleton.1 hs] at hx'
  obtain rfl : x = x' := Option.some.inj (h.styles.names.symm.trans hx')
  exact ⟨t, ht, hvalue⟩

theorem beginsWith (h : c.WalksTo r r' key x) (ht : c.catalog.overridden? x = some t)
    (hread : c.ReadsBack t) :
    BeginsWith r' (c.injectionsFor r [⟨[], key⟩]) (c.referenceTo t) r.body := by
  refine ⟨h.body, fun e he => ?_, fun d hd => (isPlain_iff.1 (h.plain d hd)).2.2⟩
  obtain ⟨t', ht', hvalue⟩ := h.value_of_mem he
  obtain rfl : t = t' := Option.some.inj (ht.symm.trans ht')
  rw [hvalue]
  exact hread.1

end WalksTo

end Job

/-! ## What a plain rule emits -/

section

variable {loading : List String} {w : Workspace} {m : Nat} {sheet : Stylesheet} {r r' : Rule}
  {key : Compound} {x t : ObjectId}

theorem Job.WalksTo.emissionsOf_eq_nil (hwalks : c.WalksTo r r' key x)
    (ht : c.catalog.overridden? x = none) : c.emissionsOf r' = [] := by
  have hnone : c.injectionsFor r [⟨[], key⟩] = [] := by
    refine eq_nil_iff_forall_not_mem.2 fun e he => ?_
    obtain ⟨t, ht', -⟩ := hwalks.value_of_mem he
    rw [ht] at ht'
    cases ht'
  have hbegins : BeginsWith r' [] "" r.body := by
    refine ⟨?_, by simp, fun d hd => (isPlain_iff.1 (hwalks.plain d hd)).2.2⟩
    rw [hwalks.body, hnone]
  obtain ⟨requests, hrequests, hof, -⟩ := hbegins.requests (c := c)
  obtain rfl : requests = [] := by
    refine eq_nil_iff_forall_not_mem.2 fun q hq => ?_
    exact absurd (hof q hq).1 (Nat.not_lt_zero _)
  rw [emissionsOf, hrequests]
  cases Selector.parseList r'.selector <;> rfl

variable (h : w.Sound loading) (hplain : w.catalog.PlainChain m)
  (hsheet : (w.catalog.block m).stylesheet = some sheet)
  (hwalks : (w.catalog.job m sheet).WalksTo r r' key x)

include h hplain hsheet hwalks

/-- A plain rule is given resolutions for those of its properties that the object which is overridden
has as well. -/
theorem Workspace.Sound.exists_injection_iff (ht : w.catalog.overridden? x = some t)
    (hlanguage : languageProperties.contains (lowercase p) = false) :
    (∃ e ∈ (w.catalog.job m sheet).injectionsFor r [⟨[], key⟩], e.property = p) ↔
      r.declared p ≠ [] ∧ w.catalog.settings t p ≠ [] := by
  obtain rfl : x.block = m := hwalks.styles.block
  obtain ⟨htblock, hti, -⟩ := h.overridden (Block.isComplete_of_stylesheet hsheet) ht
  obtain ⟨sheet', hsheet', hplain'⟩ := hplain.plain _ (mem_cons_of_mem _ htblock)
  rw [Job.exists_injection_iff hwalks.styles hwalks.plain]
  refine and_congr_right fun hp => ?_
  have hset := Rule.setting_ne_nil hp
  have hshared : (sharedPropertiesFor w.catalog x t none).any (overlaps · p) = true ↔
      w.catalog.settings x p ≠ [] ∧ w.catalog.settings t p ≠ [] :=
    h.any_overlaps_iff hsheet (hplain.isPlain hsheet) hwalks.styles.lt hsheet' hplain' hti
      (Rule.covered_of_setting hwalks.plain hset) hlanguage
  constructor
  · rintro ⟨t', ht', hany⟩
    obtain rfl : t = t' := Option.some.inj (ht.symm.trans ht')
    exact (hshared.1 hany).2
  · intro hst
    exact ⟨t, ht, hshared.2 ⟨hwalks.settings p hset, hst⟩⟩

theorem Workspace.Sound.emissionsFor_ne_nil_iff (ht : w.catalog.overridden? x = some t)
    {q : Job.Request}
    (hindex : q.index < ((w.catalog.job m sheet).injectionsFor r [⟨[], key⟩]).length)
    (hresolution : q.resolution = ⟨true, (w.catalog.job m sheet).referenceTo t⟩)
    (hown : r.declared q.declaration.property ≠ []) :
    let emitted := (w.catalog.job m sheet).emissionsFor r'
      [Job.classSelector (w.catalog.className x)] q
    (∀ e ∈ emitted, ∃ y ∈ w.catalog.lineage t, e = ⟨[], [(Job.pairSelector (w.catalog.className x)
      (w.catalog.className y)).render], r.declared q.declaration.property⟩) ∧
    (emitted ≠ [] ↔ ∃ y ∈ w.catalog.lineage t, ∃ other ∈ w.catalog.settings y q.declaration.property,
      differ (r.declared q.declaration.property) other = true) := by
  obtain rfl : x.block = m := hwalks.styles.block
  have hx : w.catalog.Holds x := ⟨Block.isComplete_of_stylesheet hsheet, hwalks.styles.lt⟩
  have hread : (w.catalog.job x.block sheet).ReadsBack t :=
    hplain.readsBack _ (by simp) sheet hsheet x t rfl hx.lt ht
  have hblock : t.block ≠ x.block := by
    intro heq
    have hmem := (h.overridden hx.isComplete ht).1
    rw [heq] at hmem
    exact (h.chain hx.isComplete).1.notMem hmem
  have hcovered := Rule.covered_of_setting hwalks.plain (Rule.setting_ne_nil hown)
  rw [(hwalks.beginsWith ht hread).emissionsFor hread.2 hblock hindex hresolution hown]
  refine Job.emissionsAlong_ne_nil_iff hown (fun d hd => ?_) rfl (fun y hy => ?_) (fun y hy => ?_)
    fun y hy other hother => ?_
  · exact (isPlain_iff.1 (hwalks.plain d (Rule.mem_declared.1 hd).1)).2.1
  · exact (h.of_mem_lineage_overridden hx ht hy).2.2
  · exact h.rivals_eq hplain
      (mem_cons_of_mem _ (h.of_mem_lineage_overridden hx ht hy).2.1) hcovered rfl
  obtain ⟨sheet', hsheet', hplain'⟩ := hplain.plain _
    (mem_cons_of_mem _ (h.of_mem_lineage_overridden hx ht hy).2.1)
  exact ⟨Catalog.ne_nil_of_mem_settings hother,
    Catalog.important_of_mem_settings hsheet' hplain' hother⟩

theorem Workspace.Sound.mem_emissionsOf_iff (ht : w.catalog.overridden? x = some t) :
    ∃ requests : List Job.Request,
      (∀ q ∈ requests,
        q.index < ((w.catalog.job m sheet).injectionsFor r [⟨[], key⟩]).length ∧
        q.declaration ∈ (w.catalog.job m sheet).injectionsFor r [⟨[], key⟩] ∧
        q.resolution = ⟨true, (w.catalog.job m sheet).referenceTo t⟩) ∧
      (∀ d ∈ (w.catalog.job m sheet).injectionsFor r [⟨[], key⟩],
        ∃ q ∈ requests, q.declaration = d) ∧
      ∀ e, e ∈ (w.catalog.job m sheet).emissionsOf r' ↔ ∃ q ∈ requests,
        e ∈ (w.catalog.job m sheet).emissionsFor r'
          [Job.classSelector (w.catalog.className x)] q := by
  obtain rfl : x.block = m := hwalks.styles.block
  have hbegins := hwalks.beginsWith ht
    (hplain.readsBack _ (by simp) sheet hsheet x t rfl hwalks.styles.lt ht)
  obtain ⟨requests, hrequests, hof, hall⟩ := hbegins.requests (c := w.catalog.job x.block sheet)
  refine ⟨requests, hof, hall, fun e => ?_⟩
  have hparse : Selector.parseList r'.selector = .ok [Job.classSelector (w.catalog.className x)] := by
    have hparse := Selector.parseList_render_classNames (cons_ne_nil _ _)
      (forall_mem_singleton.2 (h.className_readable (Block.isComplete_of_stylesheet hsheet) (x := x)))
    rw [hwalks.selector]
    exact hparse
  rw [Job.emissionsOf, hrequests, hparse]
  exact mem_flatMap

/-- **What a plain rule emits.**  Its emissions are rules for its own class and that of an object
that is overridden, and have its own values for a property.  There are some for a property exactly
if an overridden setting contradicts it. -/
theorem Workspace.Sound.exists_emission_iff :
    (∀ e ∈ (w.catalog.job m sheet).emissionsOf r', ∃ q, r.declared q ≠ [] ∧
      ∃ y ∈ w.catalog.lineage x, w.catalog.className x ≠ w.catalog.className y ∧
        e = ⟨[], [(Job.pairSelector (w.catalog.className x) (w.catalog.className y)).render],
          r.declared q⟩) ∧
    ∀ p, r.declared p ≠ [] → languageProperties.contains (lowercase p) = false →
      ((∃ e ∈ (w.catalog.job m sheet).emissionsOf r', e.values = r.declared p) ↔
        w.catalog.clashes x p (r.declared p) = true) := by
  obtain rfl : x.block = m := hwalks.styles.block
  have hx : w.catalog.Holds x := ⟨Block.isComplete_of_stylesheet hsheet, hwalks.styles.lt⟩
  cases ht : w.catalog.overridden? x with
  | none =>
    rw [hwalks.emissionsOf_eq_nil ht]
    refine ⟨by simp, fun p _ _ => ?_⟩
    rw [Catalog.clashes, ht]
    simp
  | some t =>
    obtain ⟨requests, hof, hall, hmem⟩ := h.mem_emissionsOf_iff hplain hsheet hwalks ht
    have hrequest : ∀ q ∈ requests, r.declared q.declaration.property ≠ [] := fun q hq =>
      ((Job.exists_injection_iff hwalks.styles hwalks.plain).1 ⟨_, (hof q hq).2.1, rfl⟩).1
    have hemitted := fun q hq => h.emissionsFor_ne_nil_iff hplain hsheet hwalks ht (hof q hq).1
      (hof q hq).2.2 (hrequest q hq)
    constructor
    · intro e he
      obtain ⟨q, hq, he⟩ := (hmem e).1 he
      obtain ⟨y, hy, rfl⟩ := (hemitted q hq).1 e he
      refine ⟨_, hrequest q hq, y, ?_, (h.of_mem_lineage_overridden hx ht hy).2.2, rfl⟩
      rw [h.lineage_eq_of_overridden hx.isComplete ht]
      exact mem_cons_of_mem x hy
    · intro p hp hlanguage
      have hinjected := h.exists_injection_iff hplain hsheet hwalks ht hlanguage
      rw [Catalog.clashes_iff]
      constructor
      · rintro ⟨e, he, hvalues⟩
        obtain ⟨q, hq, he⟩ := (hmem e).1 he
        obtain ⟨y, -, rfl⟩ := (hemitted q hq).1 e he
        obtain rfl := Rule.eq_of_declared_eq (hrequest q hq) hvalues
        refine ⟨t, ht, ?_, (hemitted q hq).2.1 (ne_nil_of_mem he)⟩
        exact (hinjected.1 ⟨_, (hof q hq).2.1, rfl⟩).2
      · rintro ⟨t', ht', hst, hdiffer⟩
        obtain rfl : t = t' := Option.some.inj (ht.symm.trans ht')
        obtain ⟨d, hd, rfl⟩ := hinjected.2 ⟨hp, hst⟩
        obtain ⟨q, hq, rfl⟩ := hall d hd
        obtain ⟨e, he⟩ := exists_mem_of_ne_nil _ ((hemitted q hq).2.2 hdiffer)
        obtain ⟨y, -, rfl⟩ := (hemitted q hq).1 e he
        exact ⟨_, (hmem _).2 ⟨q, hq, he⟩, rfl⟩

end

end StyleBlocks
