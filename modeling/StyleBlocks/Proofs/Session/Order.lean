import StyleBlocks.Proofs.Compilation.Outcome

/-!
# Inheritance and the order of stylesheets

Blocks that extend each other are compiled one by one, and an element that has the classes of an
object may meet the compiled stylesheets in any order.

* `Session.Reachable.cascade_perm_iff`: **when an element gets the object's own value in every order.**
* `Session.Reachable.cascade_base`: **what it gets if there is one base block only.**
-/

namespace StyleBlocks

open Catalog List

variable {loading : List String} {m weight : Nat} {w : Workspace} {y x : ObjectId}

/-! ## The compiled stylesheets of a chain -/

namespace Session

def compiledNodes (s : Session) (m : Nat) : List Node :=
  ((s.compile m).1.toOption.map Stylesheet.nodes).getD []

/-- An object of a plain chain whose blocks are compiled with success, and none of whose classes is
that of an object beside its lineage. -/
structure CompilesChain (s : Session) (x : ObjectId) : Prop where
  holds : s.catalog.Holds x
  plain : s.catalog.PlainChain x.block
  compiles : ∀ m ∈ x.block :: s.catalog.ancestors x.block, (s.compile m).1.toOption.isSome = true
  classes : ∀ y, s.catalog.Holds y → y.block ∈ x.block :: s.catalog.ancestors x.block →
    s.catalog.className y ∈ s.catalog.classNames x → y ∈ s.catalog.lineage x

end Session

namespace Catalog

/-- The values that a block comes to, for an element that has the classes of the objects with a path. -/
def valuesAt (g : Catalog) (path : ObjectPath) (property : String) (m : Nat) : List (Nat × String) :=
  (((g.block m).find? path).map (g.objectValues · property)).getD []

end Catalog

theorem applied_flatMap (classes : List String) (p : String) (f : Nat → List Node) (l : List Nat) :
    applied classes p (l.flatMap f) = l.flatMap fun m => applied classes p (f m) := by
  induction l with
  | nil => rfl
  | cons m l ih =>
    rw [flatMap_cons, flatMap_cons, ← ih, applied, rulesOf_append, flatMap_append]
    rfl

theorem Workspace.Sound.lineage_subset (h : w.Sound loading) (hx : w.catalog.Holds x)
    (hy : y ∈ w.catalog.lineage x) : w.catalog.lineage y ⊆ w.catalog.lineage x := by
  intro z hz
  obtain ⟨hyheld, hypath⟩ := h.of_mem_lineage hx hy
  obtain ⟨hzblock, hzfind⟩ := (h.mem_lineage hyheld).1 hz
  rw [h.mem_lineage hx, ← hypath]
  have hyblock := ((h.mem_lineage hx).1 hy).1
  exact ⟨h.mem_chain_of_mem hx.isComplete hyblock hzblock, hzfind⟩

namespace Session.CompilesChain

variable {s : Session} {p : String} (h : s.CompilesChain x) (hs : s.Reachable)

include h hs

theorem mem_lineage_iff :
    y ∈ s.catalog.lineage x ↔ y.block ∈ x.block :: s.catalog.ancestors x.block ∧
      (s.catalog.block y.block).find? (s.catalog.pathTo x) = some y :=
  hs.sound.mem_lineage h.holds

theorem className_mem_iff (hm : m ∈ x.block :: s.catalog.ancestors x.block) (hy : s.catalog.Holds y)
    (hblock : y.block = m) : s.catalog.className y ∈ s.catalog.classNames x ↔
      (s.catalog.block m).find? (s.catalog.pathTo x) = some y := by
  subst hblock
  constructor
  · intro hclass
    exact ((h.mem_lineage_iff hs).1 (h.classes y hy hm hclass)).2
  · intro hfind
    exact mem_map_of_mem ((h.mem_lineage_iff hs).2 ⟨hm, hfind⟩)

theorem lastAt_applied (hlanguage : languageProperties.contains (lowercase p) = false)
    (hm : m ∈ x.block :: s.catalog.ancestors x.block) (weight : Nat) :
    lastAt weight (applied (s.catalog.classNames x) p (s.compiledNodes m))
      = lastAt weight (s.catalog.valuesAt (s.catalog.pathTo x) p m) := by
  have hsound := hs.sound
  obtain ⟨out, hout⟩ := Option.isSome_iff_exists.1 (h.compiles m hm)
  obtain ⟨sheet, k, hsheet, hk, rfl⟩ := Session.compile_eq_ok (except_toOption_some hout)
  have hplain := hsound.plainChain_of_mem h.holds.isComplete h.plain hm
  have hstyles : ∀ r ∈ sheet.rules, ∃ key x, s.catalog.Styles m r key x := fun r hr =>
    hsound.exists_styles hsheet hr (Stylesheet.isPlain_of_mem (hplain.isPlain hsheet) hr)
  have hnodes : s.compiledNodes m = k.sheet.nodes := by
    rw [compiledNodes, hout]
    rfl
  have hcompiled : lastAt weight (applied (s.catalog.classNames x) p k.sheet.nodes) = lastAt weight
      (sheet.rules.flatMap (s.catalog.valuesOf m (s.catalog.classNames x) p)) := by
    refine hsound.lastAt_compiled hplain hsheet hk (fun y hy hblock hmem z hz => ?_) hlanguage weight
    have hlineage := h.classes y hy (hblock ▸ hm) hmem
    exact mem_map_of_mem (hsound.lineage_subset h.holds hlineage hz)
  rw [hnodes, hcompiled]
  cases hfind : (s.catalog.block m).find? (s.catalog.pathTo x) with
  | none =>
    rw [flatMap_valuesOf_eq_nil hsheet hstyles, valuesAt, hfind]
    · rfl
    · intro y hy hblock hmem
      rw [h.className_mem_iff hs hm hy hblock, hfind] at hmem
      cases hmem
  | some y =>
    obtain ⟨rfl, -, -⟩ := (hsound.orderly (Block.isComplete_of_stylesheet hsheet)).find? hfind
      (Block.block_pathTo x.index)
    rw [flatMap_valuesOf hsheet hstyles, valuesAt, hfind]
    · rfl
    · intro z hz hblock
      rw [h.className_mem_iff hs hm hz hblock, hfind, Option.some.injEq, eq_comm]

theorem cascade_eq (hlanguage : languageProperties.contains (lowercase p) = false) {l : List Nat}
    (hl : ∀ m ∈ l, m ∈ x.block :: s.catalog.ancestors x.block) :
    cascade (s.catalog.classNames x) p (l.flatMap s.compiledNodes)
      = strongest (l.flatMap (s.catalog.valuesAt (s.catalog.pathTo x) p)) := by
  rw [cascade, applied_flatMap]
  refine strongest_congr fun weight => lastAt_flatMap_congr fun m hm => ?_
  exact h.lastAt_applied hs hlanguage (hl m hm) weight

theorem exists_valuesAt_iff {P : Option String → Prop} (hP : ¬ P none) :
    (∃ m ∈ x.block :: s.catalog.ancestors x.block,
      P (lastAt weight (s.catalog.valuesAt (s.catalog.pathTo x) p m))) ↔
    ∃ y ∈ s.catalog.lineage x, P (lastAt weight (s.catalog.objectValues y p)) := by
  constructor
  · rintro ⟨m, hm, hv⟩
    rw [valuesAt] at hv
    cases hfind : (s.catalog.block m).find? (s.catalog.pathTo x) with
    | none =>
      rw [hfind] at hv
      exact absurd hv hP
    | some y =>
      rw [hfind] at hv
      have hcomplete : (s.catalog.block m).IsComplete := by
        obtain ⟨sheet, hsheet, -⟩ := h.plain.plain m hm
        exact Block.isComplete_of_stylesheet hsheet
      obtain ⟨rfl, -, -⟩ := (hs.sound.orderly hcomplete).find? hfind (Block.block_pathTo x.index)
      exact ⟨y, (h.mem_lineage_iff hs).2 ⟨hm, hfind⟩, hv⟩
  · rintro ⟨y, hy, hv⟩
    obtain ⟨hm, hfind⟩ := (h.mem_lineage_iff hs).1 hy
    refine ⟨y.block, hm, ?_⟩
    rw [valuesAt, hfind]
    exact hv

theorem forall_valuesAt_iff {v : String} :
    (∀ m ∈ x.block :: s.catalog.ancestors x.block, ∀ u,
      lastAt weight (s.catalog.valuesAt (s.catalog.pathTo x) p m) = some u → u = v) ↔
    ∀ y ∈ s.catalog.lineage x, ∀ u, lastAt weight (s.catalog.objectValues y p) = some u → u = v := by
  rw [← not_iff_not]
  push Not
  exact h.exists_valuesAt_iff hs (P := fun o => ∃ u, o = some u ∧ u ≠ v) (by simp)

/-- When an element gets a value in every order of the compiled stylesheets: no contested setting of
the lineage ends with another one, and if there is none, no setting does. -/
theorem forall_cascade_iff (hlanguage : languageProperties.contains (lowercase p) = false)
    {v : String} :
    (∀ l : List Nat, l.Perm (x.block :: s.catalog.ancestors x.block) →
      cascade (s.catalog.classNames x) p (l.flatMap s.compiledNodes) = some v) ↔
    (∀ y ∈ s.catalog.lineage x, ∀ u,
      lastValue (s.catalog.contested y p).flatten = some u → u = v) ∧
      ((∃ y ∈ s.catalog.lineage x, s.catalog.contested y p ≠ []) ∨
        (∃ y ∈ s.catalog.lineage x, s.catalog.settings y p ≠ []) ∧
        ∀ y ∈ s.catalog.lineage x, ∀ u,
          lastValue (s.catalog.settings y p).flatten = some u → u = v) := by
  have hweight : ∀ m ∈ x.block :: s.catalog.ancestors x.block,
      ∀ e ∈ s.catalog.valuesAt (s.catalog.pathTo x) p m, e.1 = 1 ∨ e.1 = 2 := by
    intro m _ e he
    rw [valuesAt] at he
    cases hfind : (s.catalog.block m).find? (s.catalog.pathTo x) with
    | none =>
      rw [hfind] at he
      cases he
    | some y =>
      rw [hfind] at he
      exact weight_of_mem_objectValues he
  have hsettings : ∀ y, lastValue (s.catalog.settings y p).flatten ≠ none ↔
      s.catalog.settings y p ≠ [] :=
    fun y => lastValue_flatten_ne_none fun own hown => ne_nil_of_mem_settings hown
  have hcontested : ∀ y, lastValue (s.catalog.contested y p).flatten ≠ none ↔
      s.catalog.contested y p ≠ [] :=
    fun y => lastValue_flatten_ne_none fun own hown =>
      ne_nil_of_mem_settings (mem_of_mem_filter hown)
  simp only [← hsettings, ← hcontested, ← lastAt_one_objectValues, ← lastAt_two_objectValues]
  rw [← h.forall_valuesAt_iff hs, ← h.forall_valuesAt_iff hs,
    ← h.exists_valuesAt_iff hs (P := (· ≠ none)) (by simp),
    ← h.exists_valuesAt_iff hs (P := (· ≠ none)) (by simp), ← strongest_perm_iff hweight]
  refine forall_congr' fun l => forall_congr' fun hl => ?_
  rw [h.cascade_eq hs hlanguage fun m hm => hl.mem_iff.1 hm]

end Session.CompilesChain

/-! ## One overridden object -/

namespace Catalog

variable {g : Catalog} {t : ObjectId} {p u v : String}

theorem self_mem_lineage (g : Catalog) (x : ObjectId) : x ∈ g.lineage x :=
  (g.lineageFrom_prefix (g.blocks.length + 1) [x] (g.overridden? x)).subset (by simp)

theorem contested_eq_nil (h : g.overridden? x = none) (p : String) : g.contested x p = [] := by
  refine filter_eq_nil_iff.2 fun own _ => ?_
  rw [clashes, h]
  simp

theorem eq_of_contested_eq_nil (ht : g.overridden? x = some t) (hnone : g.contested x p = [])
    (hv : lastValue (g.settings x p).flatten = some v)
    (hu : lastValue (g.settings t p).flatten = some u) : u = v := by
  obtain ⟨own, hown, hv⟩ := exists_of_lastValue_flatten hv
  obtain ⟨other, hother, hu⟩ := exists_of_lastValue_flatten hu
  have hdiffer : differ own other = false := by
    rw [← Bool.not_eq_true]
    intro hdiffer
    refine filter_eq_nil_iff.1 hnone own hown (clashes_iff.2 ⟨t, ht, ?_, ?_⟩)
    · exact ne_nil_of_mem hother
    · exact ⟨t, g.self_mem_lineage t, other, hother, hdiffer⟩
  rw [lastValue_eq_of_not_differ hdiffer, hu] at hv
  exact Option.some.inj hv

end Catalog

theorem Workspace.Sound.lineage_of_length_le (h : w.Sound loading) (hx : w.catalog.Holds x)
    (hlength : (w.catalog.lineage x).length ≤ 2) :
    (w.catalog.overridden? x = none ∧ w.catalog.lineage x = [x]) ∨
      ∃ t, w.catalog.overridden? x = some t ∧ w.catalog.overridden? t = none ∧
        w.catalog.lineage x = [x, t] := by
  have halone : ∀ {y}, w.catalog.overridden? y = none → w.catalog.lineage y = [y] := by
    intro y hy
    rw [lineage, hy]
    rfl
  cases ht : w.catalog.overridden? x with
  | none => exact .inl ⟨rfl, halone ht⟩
  | some t =>
    obtain ⟨hblock, hi, -⟩ := h.overridden hx.isComplete ht
    rw [h.lineage_eq_of_overridden hx.isComplete ht] at hlength ⊢
    cases ht' : w.catalog.overridden? t with
    | none => exact .inr ⟨t, rfl, ht', by rw [halone ht']⟩
    | some t' =>
      rw [h.lineage_eq_of_overridden ((h.chain hx.isComplete).2 _ hblock) ht'] at hlength
      have := length_pos_of_mem (w.catalog.self_mem_lineage t')
      simp only [length_cons] at hlength
      omega

/-- What an element gets in every order if an object overrides one other object at most: the last
decisive value. -/
theorem Session.CompilesChain.cascade_of_length_le {s : Session} {p v : String}
    (h : s.CompilesChain x) (hs : s.Reachable)
    (hlanguage : languageProperties.contains (lowercase p) = false)
    (hlength : (s.catalog.lineage x).length ≤ 2)
    (hv : lastValue (s.catalog.decisive x p).flatten = some v) :
    ∀ l : List Nat, l.Perm (x.block :: s.catalog.ancestors x.block) →
      cascade (s.catalog.classNames x) p (l.flatMap s.compiledNodes) = some v := by
  refine (h.forall_cascade_iff hs hlanguage).2 ?_
  -- only the object itself may be contested
  have hcases : ∀ y ∈ s.catalog.lineage x, y = x ∨
      s.catalog.overridden? x = some y ∧ s.catalog.contested y p = [] := by
    intro y hy
    rcases hs.sound.lineage_of_length_le h.holds hlength with ⟨-, heq⟩ | ⟨t, ht, ht', heq⟩
    · exact .inl (mem_singleton.1 (heq ▸ hy))
    · rcases mem_pair.1 (heq ▸ hy) with rfl | rfl
      · exact .inl rfl
      · exact .inr ⟨ht, contested_eq_nil ht' p⟩
  have hself := s.catalog.self_mem_lineage x
  rw [decisive] at hv
  by_cases hnone : s.catalog.contested x p = []
  · rw [if_pos hnone] at hv
    refine ⟨fun y hy u hu => ?_, .inr ⟨⟨x, hself, ?_⟩, fun y hy u hu => ?_⟩⟩
    · rcases hcases y hy with rfl | ⟨-, hy'⟩
      · rw [hnone] at hu
        cases hu
      · rw [hy'] at hu
        cases hu
    · rintro hnil
      rw [hnil] at hv
      cases hv
    · rcases hcases y hy with rfl | ⟨ht, -⟩
      · exact Option.some.inj (hu.symm.trans hv)
      · exact eq_of_contested_eq_nil ht hnone hv hu
  · rw [if_neg hnone] at hv
    refine ⟨fun y hy u hu => ?_, .inl ⟨x, hself, hnone⟩⟩
    rcases hcases y hy with rfl | ⟨-, hy'⟩
    · exact Option.some.inj (hu.symm.trans hv)
    · rw [hy'] at hu
      cases hu

/-! ## A check -/

instance (c : Job) (t : ObjectId) : Decidable (c.ReadsBack t) :=
  inferInstanceAs (Decidable (_ ∧ _))

def Catalog.isPlainChain (g : Catalog) (n : Nat) : Bool :=
  (n :: g.ancestors n).all fun m => (g.block m).stylesheet.any fun sheet =>
    sheet.isPlain && (List.range (g.block m).objects.length).all fun i =>
      (g.overridden? ⟨m, i⟩).all fun t => decide ((g.job m sheet).ReadsBack t)

theorem Catalog.plainChain_of_isPlainChain {g : Catalog} {n : Nat} (h : g.isPlainChain n = true) :
    g.PlainChain n := by
  have hat : ∀ m ∈ n :: g.ancestors n, ∃ sheet, (g.block m).stylesheet = some sheet ∧
      sheet.isPlain = true ∧ ∀ i < (g.block m).objects.length, ∀ t, g.overridden? ⟨m, i⟩ = some t →
        (g.job m sheet).ReadsBack t := by
    intro m hm
    obtain ⟨sheet, hsheet, hboth⟩ := (Option.any_eq_true _ _).1 (all_eq_true.1 h m hm)
    obtain ⟨hplain, hobjects⟩ := Bool.and_eq_true_iff.1 hboth
    refine ⟨sheet, hsheet, hplain, fun i hi t ht => ?_⟩
    have hread := all_eq_true.1 hobjects i (mem_range.2 hi)
    rw [ht] at hread
    exact of_decide_eq_true hread
  refine ⟨fun m hm => ?_, fun m hm sheet hsheet x t hx hi ht => ?_⟩
  · obtain ⟨sheet, hsheet, hplain, -⟩ := hat m hm
    exact ⟨sheet, hsheet, hplain⟩
  · obtain ⟨sheet', hsheet', -, hread⟩ := hat m hm
    subst hx
    exact hread x.index hi t ht

/-- Whether an object is one of a plain chain whose blocks are compiled with success. -/
def Session.compilesChain (s : Session) (x : ObjectId) : Bool :=
  decide (x.index < (s.catalog.block x.block).objects.length) && s.catalog.isPlainChain x.block &&
    (x.block :: s.catalog.ancestors x.block).all fun m => (s.compile m).1.toOption.isSome &&
      (List.range (s.catalog.block m).objects.length).all fun i =>
        !(s.catalog.classNames x).contains (s.catalog.className ⟨m, i⟩) ||
          (s.catalog.lineage x).contains ⟨m, i⟩

theorem Session.compilesChain_of_check {s : Session} (h : s.compilesChain x = true) :
    s.CompilesChain x := by
  rw [compilesChain, Bool.and_eq_true, Bool.and_eq_true, decide_eq_true_iff, all_eq_true] at h
  obtain ⟨⟨hlt, hplain⟩, hall⟩ := h
  have hplain := plainChain_of_isPlainChain hplain
  obtain ⟨sheet, hsheet, -⟩ := hplain.plain x.block (by simp)
  refine ⟨⟨Block.isComplete_of_stylesheet hsheet, hlt⟩, hplain, fun m hm => ?_,
    fun y hy hblock hclass => ?_⟩
  · exact (Bool.and_eq_true_iff.1 (hall m hm)).1
  have hobjects := (Bool.and_eq_true_iff.1 (hall _ hblock)).2
  have hat := all_eq_true.1 hobjects y.index (mem_range.2 hy.lt)
  rw [Bool.or_eq_true, Bool.not_eq_true', ← Bool.not_eq_true, contains_iff_mem,
    contains_iff_mem] at hat
  exact hat.resolve_left (not_not.2 hclass)

/-! ## Every order -/

/-- **When an element gets an object's own value in every order of the compiled stylesheets.**  The
object is one of a plain chain, and `v` the value that its block sets last.  The element gets `v` in
every order exactly if all contested settings of the lineage end with `v`, and if there are none, all
settings do.  If the object overrides one other object at most, and has one setting, that is so. -/
theorem Session.Reachable.cascade_perm_iff {s : Session} (hs : s.Reachable) {x : ObjectId}
    (h : s.CompilesChain x) {p v : String}
    (hlanguage : languageProperties.contains (lowercase p) = false)
    (hv : lastValue (s.catalog.settings x p).flatten = some v) :
    ((∀ l : List Nat, l.Perm (x.block :: s.catalog.ancestors x.block) →
        cascade (s.catalog.classNames x) p (l.flatMap s.compiledNodes) = some v) ↔
      (∀ y ∈ s.catalog.lineage x, ∀ u,
        lastValue (s.catalog.contested y p).flatten = some u → u = v) ∧
        ((∃ y ∈ s.catalog.lineage x, s.catalog.contested y p ≠ []) ∨
          ∀ y ∈ s.catalog.lineage x, ∀ u,
            lastValue (s.catalog.settings y p).flatten = some u → u = v)) ∧
    ((s.catalog.lineage x).length ≤ 2 → (s.catalog.settings x p).length ≤ 1 →
      ∀ l : List Nat, l.Perm (x.block :: s.catalog.ancestors x.block) →
        cascade (s.catalog.classNames x) p (l.flatMap s.compiledNodes) = some v) := by
  have hsome : ∃ y ∈ s.catalog.lineage x, s.catalog.settings y p ≠ [] := by
    refine ⟨x, s.catalog.self_mem_lineage x, fun hnil => ?_⟩
    rw [hnil] at hv
    cases hv
  refine ⟨(h.forall_cascade_iff hs hlanguage).trans ?_, fun hlength hone => ?_⟩
  · exact and_congr_right fun _ => or_congr_right (and_iff_right hsome)
  · refine h.cascade_of_length_le hs hlanguage hlength ?_
    rw [Catalog.decisive]
    split
    · exact hv
    · rename_i hcontested
      -- the one setting is the contested one
      have hlast : s.catalog.contested x p = s.catalog.settings x p := by
        refine List.filter_sublist.eq_of_length_le (hone.trans ?_)
        exact List.length_pos_iff.2 hcontested
      rw [hlast]
      exact hv

/-- A block that extends one that extends a third, where all three set one property. -/
def twiceOverridden : Session :=
  .ofFiles [("c.css", ":scope \x7b color: red \x7d"),
    ("b.css", "@block-reference c from \"c.css\"; :scope \x7b extends: c; color: green \x7d"),
    ("a.css", "@block-reference b from \"b.css\"; :scope \x7b extends: b; color: blue \x7d")]
    ["a.css"]

theorem twiceOverridden_run : ((twiceOverridden.compilesChain ⟨0, 0⟩ &&
    (lastValue (twiceOverridden.catalog.settings ⟨0, 0⟩ "color").flatten == some "blue" &&
    (twiceOverridden.compilesChain ⟨1, 0⟩ &&
    (lastValue (twiceOverridden.catalog.settings ⟨1, 0⟩ "color").flatten == some "green" &&
    (decide ((twiceOverridden.catalog.lineage ⟨1, 0⟩).length ≤ 2) &&
    decide ((twiceOverridden.catalog.settings ⟨1, 0⟩ "color").length ≤ 1)))))) &&
    (twiceOverridden.catalog.ancestors 0 == [1, 2] &&
    (([0, 1, 2].all fun m => (range (twiceOverridden.catalog.block m).objects.length).all
      fun i => decide ((twiceOverridden.catalog.rulesFor ⟨m, i⟩).length ≤ 1)) &&
    cascade (twiceOverridden.catalog.classNames ⟨0, 0⟩) "color"
      ([0, 2, 1].flatMap twiceOverridden.compiledNodes) == some "green"))) = true := by
  decide +kernel

theorem twiceOverridden_compilesChain : (twiceOverridden.CompilesChain ⟨0, 0⟩ ∧
    lastValue (twiceOverridden.catalog.settings ⟨0, 0⟩ "color").flatten = some "blue") ∧
    twiceOverridden.CompilesChain ⟨1, 0⟩ ∧
    lastValue (twiceOverridden.catalog.settings ⟨1, 0⟩ "color").flatten = some "green" ∧
    (twiceOverridden.catalog.lineage ⟨1, 0⟩).length ≤ 2 ∧
    (twiceOverridden.catalog.settings ⟨1, 0⟩ "color").length ≤ 1 := by
  have hrun := twiceOverridden_run
  simp only [Bool.and_eq_true, beq_iff_eq, decide_eq_true_iff] at hrun
  obtain ⟨⟨hfirst, hvalue, hsecond, hrest⟩, -⟩ := hrun
  exact ⟨⟨Session.compilesChain_of_check hfirst, hvalue⟩, Session.compilesChain_of_check hsecond,
    hrest⟩

theorem cascade_perm_iff_twiceOverridden : twiceOverridden.CompilesChain ⟨0, 0⟩ ∧
    lastValue (twiceOverridden.catalog.settings ⟨0, 0⟩ "color").flatten = some "blue" ∧
    ((∀ l : List Nat, l.Perm (0 :: twiceOverridden.catalog.ancestors 0) →
        cascade (twiceOverridden.catalog.classNames ⟨0, 0⟩) "color"
          (l.flatMap twiceOverridden.compiledNodes) = some "blue") ↔
      (∀ y ∈ twiceOverridden.catalog.lineage ⟨0, 0⟩, ∀ u,
        lastValue (twiceOverridden.catalog.contested y "color").flatten = some u → u = "blue") ∧
        ((∃ y ∈ twiceOverridden.catalog.lineage ⟨0, 0⟩,
            twiceOverridden.catalog.contested y "color" ≠ []) ∨
          ∀ y ∈ twiceOverridden.catalog.lineage ⟨0, 0⟩, ∀ u,
            lastValue (twiceOverridden.catalog.settings y "color").flatten = some u → u = "blue")) ∧
    ∀ l : List Nat, l.Perm (1 :: twiceOverridden.catalog.ancestors 1) →
      cascade (twiceOverridden.catalog.classNames ⟨1, 0⟩) "color"
        (l.flatMap twiceOverridden.compiledNodes) = some "green" := by
  obtain ⟨⟨hchain, hvalue⟩, hchain', hvalue', hlength, hone⟩ := twiceOverridden_compilesChain
  have hlanguage : languageProperties.contains (lowercase "color") = false := by decide +kernel
  exact ⟨hchain, hvalue, (Session.Reachable.cascade_perm_iff (Session.reachable_ofFiles _ _) hchain
    hlanguage hvalue).1, (Session.Reachable.cascade_perm_iff (Session.reachable_ofFiles _ _) hchain'
    hlanguage hvalue').2 hlength hone⟩

/-- An element does not get the value of the block that overrides last if the stylesheet of the block
in between comes last. -/
theorem twiceOverridden_cascade : twiceOverridden.CompilesChain ⟨0, 0⟩ ∧
    (∀ m ∈ 0 :: twiceOverridden.catalog.ancestors 0,
      ∀ i < (twiceOverridden.catalog.block m).objects.length,
        (twiceOverridden.catalog.rulesFor ⟨m, i⟩).length ≤ 1) ∧
    lastValue (twiceOverridden.catalog.settings ⟨0, 0⟩ "color").flatten = some "blue" ∧
    ∃ l : List Nat, l.Perm (0 :: twiceOverridden.catalog.ancestors 0) ∧
      cascade (twiceOverridden.catalog.classNames ⟨0, 0⟩) "color"
        (l.flatMap twiceOverridden.compiledNodes) = some "green" := by
  obtain ⟨⟨hchain, hvalue⟩, -⟩ := twiceOverridden_compilesChain
  have hrun := twiceOverridden_run
  simp only [Bool.and_eq_true, beq_iff_eq, List.all_eq_true, List.mem_range, decide_eq_true_iff]
    at hrun
  obtain ⟨-, hancestors, hrules, hcascade⟩ := hrun
  rw [hancestors]
  exact ⟨hchain, hrules, hvalue, [0, 2, 1], by decide, hcascade⟩

/-- **What an element gets if a block extends one that has no base.**  In both orders of the two
compiled stylesheets it gets the last decisive value of its object: that of a contested setting, or the
last value that is set if no setting is contested. -/
theorem Session.Reachable.cascade_base {s : Session} (hs : s.Reachable) {x : ObjectId}
    (h : s.CompilesChain x) {a : Nat} (hbase : (s.catalog.block x.block).base? = some a)
    (hlast : (s.catalog.block a).base? = none) {p : String}
    (hlanguage : languageProperties.contains (lowercase p) = false)
    (hp : s.catalog.settings x p ≠ []) :
    ∃ v, lastValue (s.catalog.decisive x p).flatten = some v ∧
      cascade (s.catalog.classNames x) p
        (s.compiledNodes x.block ++ s.compiledNodes a) = some v ∧
      cascade (s.catalog.classNames x) p
        (s.compiledNodes a ++ s.compiledNodes x.block) = some v := by
  have hancestors : s.catalog.ancestors x.block = [a] :=
    (hs.sound.chain h.holds.isComplete).1.unique (.step hbase (.last hlast))
  have hlineage : s.catalog.lineage x
      = s.catalog.objectsWith (s.catalog.pathTo x) (x.block :: s.catalog.ancestors x.block) :=
    hs.sound.lineage_eq h.holds
  have hlength : (s.catalog.lineage x).length ≤ 2 := by
    rw [hlineage, hancestors]
    exact List.length_filterMap_le _ _
  obtain ⟨v, hv⟩ := Catalog.exists_lastValue_decisive hp
  have hall := h.cascade_of_length_le hs hlanguage hlength hv
  rw [hancestors] at hall
  have hfirst := hall [x.block, a] (.refl _)
  have hsecond := hall [a, x.block] (.swap _ _ _)
  simp only [List.flatMap_cons, List.flatMap_nil, List.append_nil] at hfirst hsecond
  exact ⟨v, hv, hfirst, hsecond⟩

/-- A block that sets a property twice, the second time as its base does. -/
def setTwice : Session :=
  .ofFiles [("c.css", ":scope \x7b color: red \x7d"),
    ("b.css", "@block-reference c from \"c.css\"; :scope \x7b extends: c; color: blue \x7d " ++
      ":scope \x7b color: red \x7d")] ["b.css"]

theorem setTwice_run : (setTwice.compilesChain ⟨0, 0⟩ &&
    ((setTwice.catalog.block 0).base? == some 1 && ((setTwice.catalog.block 1).base? == none &&
    (lastValue (setTwice.catalog.settings ⟨0, 0⟩ "color").flatten == some "red" &&
    (setTwice.catalog.overridden? ⟨0, 0⟩ == some ⟨1, 0⟩ &&
    cascade (setTwice.catalog.classNames ⟨0, 0⟩) "color"
      (setTwice.compiledNodes 0 ++ setTwice.compiledNodes 1) == some "blue"))))) = true := by
  decide +kernel

theorem setTwice_compilesChain : setTwice.CompilesChain ⟨0, 0⟩ ∧
    (setTwice.catalog.block 0).base? = some 1 ∧ (setTwice.catalog.block 1).base? = none ∧
    lastValue (setTwice.catalog.settings ⟨0, 0⟩ "color").flatten = some "red" := by
  have hrun := setTwice_run
  simp only [Bool.and_eq_true, beq_iff_eq] at hrun
  obtain ⟨hcheck, hbase, hlast, hvalue, -⟩ := hrun
  exact ⟨Session.compilesChain_of_check hcheck, hbase, hlast, hvalue⟩

theorem cascade_base_setTwice : setTwice.CompilesChain ⟨0, 0⟩ ∧
    (setTwice.catalog.block 0).base? = some 1 ∧ (setTwice.catalog.block 1).base? = none ∧
    setTwice.catalog.settings ⟨0, 0⟩ "color" ≠ [] ∧
    ∃ v, lastValue (setTwice.catalog.decisive ⟨0, 0⟩ "color").flatten = some v ∧
      cascade (setTwice.catalog.classNames ⟨0, 0⟩) "color"
        (setTwice.compiledNodes 0 ++ setTwice.compiledNodes 1) = some v ∧
      cascade (setTwice.catalog.classNames ⟨0, 0⟩) "color"
        (setTwice.compiledNodes 1 ++ setTwice.compiledNodes 0) = some v := by
  obtain ⟨hchain, hbase, hlast, hvalue⟩ := setTwice_compilesChain
  have hset : setTwice.catalog.settings ⟨0, 0⟩ "color" ≠ [] := by
    intro hnil
    rw [hnil] at hvalue
    cases hvalue
  exact ⟨hchain, hbase, hlast, hset, Session.Reachable.cascade_base (Session.reachable_ofFiles _ _)
    hchain hbase hlast (by decide +kernel) hset⟩

/-- An element gets a value that is not the last one of its object's own block, if the last one is also
that of the base. -/
theorem setTwice_cascade : setTwice.CompilesChain ⟨0, 0⟩ ∧
    (setTwice.catalog.block 0).base? = some 1 ∧ (setTwice.catalog.block 1).base? = none ∧
    lastValue (setTwice.catalog.settings ⟨0, 0⟩ "color").flatten = some "red" ∧
    setTwice.catalog.overridden? ⟨0, 0⟩ = some ⟨1, 0⟩ ∧
    cascade (setTwice.catalog.classNames ⟨0, 0⟩) "color"
      (setTwice.compiledNodes 0 ++ setTwice.compiledNodes 1) = some "blue" := by
  obtain ⟨hchain, hbase, hlast, hvalue⟩ := setTwice_compilesChain
  have hrun := setTwice_run
  simp only [Bool.and_eq_true, beq_iff_eq] at hrun
  exact ⟨hchain, hbase, hlast, hvalue, hrun.2.2.2.2⟩

end StyleBlocks
