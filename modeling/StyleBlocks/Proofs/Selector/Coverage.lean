import StyleBlocks.Proofs.Selector.LongContexts

/-!
# What merging with a long selector misses

The element that the context of a short selector asks for may stand anywhere between the elements of
a long context.  Merging looks for it at the innermost of them, nearer to the key, and before all of
them, and in no other place.

Main result: `mergeSelectors_complete_iff`.
-/

namespace StyleBlocks

open List Combinator

/-- All that is before the element of `x`, the innermost one of a long context, is before all
elements of the context, or it need not be looked for: the conditions of `b` hold where those of `x`
do, or the other way round for elements that are in the same place. -/
def isFound (b : Compound) (k : Combinator) (x : Compound) (j : Combinator)
    (outer : List (Compound × Combinator)) : Bool :=
  k.isVertical && outer.all (·.2.isHorizontal) ||
    j.isHorizontal == k.isHorizontal && b.within x ||
    j == .sibling && k == .sibling && outer.head?.any (·.2.isVertical) && x.within b

theorem isFound_iff {b x : Compound} {k j : Combinator} {outer : List (Compound × Combinator)} :
    isFound b k x j outer = true ↔
      k.isVertical = true ∧ (∀ p ∈ outer, p.2.isHorizontal = true) ∨
      j.isHorizontal = k.isHorizontal ∧ b ⊆ x ∨
      j = .sibling ∧ k = .sibling ∧ outer.head?.any (·.2.isVertical) = true ∧ x ⊆ b := by
  simp only [isFound, Bool.or_eq_true, Bool.and_eq_true, beq_iff_eq, Compound.within_iff,
    all_eq_true, or_assoc, and_assoc]

/-- An element that the context of `short` asks for is looked for in the right places of the context
of `long`. -/
def Selector.covers (long short : Selector) : Bool :=
  match long.context.reverse, short.context with
  | (x, j) :: outer, [(b, k)] => !k.passes j || isFound b k x j outer
  | _, _ => true

/-! ## What is found -/

section

variable {root : Element} {means : Simple → Address → Prop} {a e : Address} {x b : Compound}
  {j k : Combinator} {outer : List (Compound × Combinator)}

/-- What is around an element is around the first of those beside it. -/
theorem LeadsTo.append_of_isHorizontal (hk : k.isVertical = true)
    (houter : ∀ p ∈ outer, p.2.isHorizontal = true) (h : LeadsTo root means outer e)
    (hb : LeadsTo root means [(b, k)] e) : LeadsTo root means (outer ++ [(b, k)]) e := by
  induction outer generalizing e with
  | nil => exact hb
  | cons p outer ih =>
    obtain ⟨a, ha, hae, hholds, hleads⟩ := h
    obtain ⟨z, hz, hze, hb⟩ := hb
    have hza := (relates_iff_of_horizontal (houter p mem_cons_self) hk hae).1 hze
    exact ⟨a, ha, hae, hholds, ih (fun q hq => houter q (mem_cons_of_mem p hq)) hleads
      ⟨z, hz, hza, hb⟩⟩

theorem LeadsTo.of_beside (houter : outer.head?.any (·.2.isVertical) = true)
    (h : LeadsTo root means outer a) (ha : sibling.Relates a e) {a' : Address}
    (ha' : sibling.Relates a' e) : LeadsTo root means outer a' := by
  cases outer with
  | nil => cases houter
  | cons p outer =>
    obtain ⟨z, hz, hza, hholds⟩ := h
    have hze := (relates_iff_of_horizontal rfl houter ha).2 hza
    exact ⟨z, hz, (relates_iff_of_horizontal rfl houter ha').1 hze, hholds⟩

/-- **What both contexts lead to is found by a merged one**, if the short context is looked for in
the right places. -/
theorem exists_mergedContext_of_leadsTo (hfound : k.passes j = true → isFound b k x j outer = true)
    (hlong : LeadsTo root means ((x, j) :: outer) e) (hshort : LeadsTo root means [(b, k)] e) :
    ∃ context, MergedContext x j outer b k context ∧ LeadsTo root means context e := by
  obtain ⟨a, ha, hae, hx, hleads⟩ := hlong
  obtain ⟨z, hz, hze, hb, -⟩ := hshort
  -- an element that both combinators lead from is that of both compounds
  have htogether : ∀ y, root.Has y → j.isHorizontal = k.isHorizontal → j.Relates y e →
      k.Relates y e → x.Holds means y → b.Holds means y → LeadsTo root means outer y →
      ∃ context, MergedContext x j outer b k context ∧ LeadsTo root means context e := by
    intro y hy haxis hj hk hx hb hleads
    refine ⟨_, .together haxis, y, hy, ?_, holds_append.2 ⟨hx, hb⟩, hleads⟩
    split
    · exact hj
    · exact hk
  rcases hae.compare hze with ⟨haxis, rfl⟩ | ⟨hpasses, haz⟩ | ⟨hpasses, hza⟩
  · exact htogether a ha haxis hae hze hx hb hleads
  · exact ⟨_, .nearer hpasses, z, hz, hze, hb, a, ha, haz, hx, hleads⟩
  have hfound := hfound hpasses
  rw [isFound_iff] at hfound
  rcases hfound with ⟨hk, houter⟩ | ⟨haxis, hbx⟩ | ⟨rfl, rfl, houter, hxb⟩
  · exact ⟨_, .before hpasses, a, ha, hae, hx,
      hleads.append_of_isHorizontal hk houter ⟨z, hz, hza, hb, trivial⟩⟩
  · have hk : k.Relates a e := by
      rw [Combinator.passes, if_pos haxis.symm, Bool.not_eq_true'] at hpasses
      exact hae.of_sameAxis haxis hpasses
    exact htogether a ha haxis hae hk hx (hx.mono hbx) hleads
  · exact htogether z hz rfl hze hze (hb.mono hxb) hb (hleads.of_beside houter hae hze)

end

/-! ## What is missed -/

theorem Combinator.relates_next_of_axis {k w : Combinator} {a : Address} (ha : a ≠ [])
    (hk : k ≠ .adjacent) (haxis : w.isHorizontal = k.isHorizontal) : k.Relates a (w.next [] a) := by
  have hw : w.Relates a (w.next [] a) := relates_next ha
  cases himmediate : k.isImmediate with
  | false => exact hw.of_sameAxis haxis himmediate
  | true =>
    cases k with
    | child =>
      have hvertical : w.isVertical = true := by
        rw [isVertical_eq, haxis]
        rfl
      exact ⟨0, next_of_isVertical hvertical a⟩
    | adjacent => exact absurd rfl hk
    | descendant | sibling => cases himmediate

theorem Combinator.eq_sibling_of_passes {k j : Combinator} (hk : k.isVertical = false)
    (h : k.passes j = true) : k = .sibling ∧ j.isHorizontal = true := by
  rw [passes] at h
  cases k with
  | sibling => simpa [isHorizontal, isVertical, isImmediate] using h
  | adjacent => simp [isHorizontal, isVertical, isImmediate] at h
  | child | descendant => cases hk

section

variable {root : Element} {means : Simple → Address → Prop} {a e gap : Address}
  {x b c y key : Compound} {j k w : Combinator}
  {front outer back context : List (Compound × Combinator)}

theorem relates_standpoint_append (hfront : ∀ p ∈ front, k.passes p.2 = true)
    (h : k.Relates a (standpoint gap outer)) : k.Relates a (standpoint gap (front ++ outer)) := by
  induction front with
  | nil => exact h
  | cons p front ih =>
    exact (ih fun q hq => hfront q (mem_cons_of_mem p hq)).pass
      (hfront p mem_cons_self) (relates_standpoint p.1 p.2 _)

theorem Depicts.of_mem_append {s : Simple} (h : s ∈ c) :
    Depicts gap key (front ++ (c, j) :: outer) s (standpoint gap outer) := by
  induction front generalizing key with
  | nil => exact .inr (.of_mem h)
  | cons p front ih => exact .inr ih

theorem LeadsTo.of_subset (hbc : b ⊆ c)
    (h : LeadsTo root means (front ++ (c, j) :: outer) e) :
    LeadsTo root means (front ++ (b, j) :: outer) e := by
  induction front generalizing e with
  | nil =>
    obtain ⟨a, ha, hae, hholds, hleads⟩ := h
    exact ⟨a, ha, hae, hholds.mono hbc, hleads⟩
  | cons p front ih =>
    obtain ⟨a, ha, hae, hholds, hleads⟩ := h
    exact ⟨a, ha, hae, hholds, ih hleads⟩

/-- **An element that is asked for by both contexts.**  Where the conditions of `b` are put to a
compound of the long context on the way of `k`, both contexts lead to the last element. -/
theorem leadsTo_of_shared (hk : k ≠ .adjacent) (haxis : w.isHorizontal = k.isHorizontal)
    (hfront : ∀ p ∈ front, k.passes p.2 = true)
    (hroot : ∀ a : Address,
      a.weight ≤ (standpoint [] (front ++ (y ++ b, w) :: back)).weight → root.Has a) :
    LeadsTo root (Depicts [] key (front ++ (y ++ b, w) :: back)) (front ++ (y, w) :: back)
        (standpoint [] (front ++ (y ++ b, w) :: back)) ∧
      LeadsTo root (Depicts [] key (front ++ (y ++ b, w) :: back)) [(b, k)]
        (standpoint [] (front ++ (y ++ b, w) :: back)) := by
  have hrelates : k.Relates (standpoint [] back) (standpoint [] (front ++ (y ++ b, w) :: back)) :=
    relates_standpoint_append hfront (relates_next_of_axis (standpoint_ne_nil back) hk haxis)
  refine ⟨(leadsTo_standpoint hroot).of_subset (subset_append_left y b),
    standpoint [] back, hroot _ (Nat.le_of_lt hrelates.weight_lt), hrelates, ?_, trivial⟩
  exact fun s hs => .of_mem_append (mem_append_right y hs)

theorem not_leadsTo_of_shared (hx : x ≠ []) (hb : b ≠ []) (houter : ∀ p ∈ outer, p.1 ≠ [])
    (hbx : j.isHorizontal = k.isHorizontal → ¬b ⊆ x) {shared : List (Compound × Combinator)}
    (hlength : shared.length = outer.length) (hcontext : MergedContext x j outer b k context) :
    ¬LeadsTo root (Depicts [] key ((x, j) :: shared)) context
      (standpoint [] ((x, j) :: shared)) := by
  intro hleads
  cases hcontext with
  | together haxis =>
    obtain ⟨hsubset, -⟩ := leadsTo_cons_of_length (append_ne_nil_of_left_ne_nil hx b) houter
      (Nat.le_of_eq hlength) hleads
    exact hbx haxis fun s hs => hsubset (mem_append_right x hs)
  | nearer hpasses =>
    have hle := length_le_of_leadsTo (by simpa [hx, hb] using houter) hleads
    simp only [length_cons, hlength] at hle
    omega
  | before hpasses =>
    have hle := length_le_of_leadsTo (by
      simp only [mem_cons, mem_append]
      rintro p (rfl | hp | rfl | hp)
      · exact hx
      · exact houter p hp
      · exact hb
      · cases hp) hleads
    simp only [length_cons, length_append, hlength] at hle
    omega

/-- An element beside the innermost one of a long context, whose other elements are around it, is
not needed to get there. -/
theorem LeadsTo.of_inserted (hj : j.isHorizontal = true) (hw : w.isVertical = true)
    (h : LeadsTo root means ((x, j) :: (b, .adjacent) :: (y, w) :: back) e) :
    LeadsTo root means ((x, j) :: (y, w) :: back) e ∧ LeadsTo root means [(b, .sibling)] e := by
  obtain ⟨a, ha, hae, hx, z, hz, hza, hb, u, hu, huz, hleads⟩ := h
  have hua : w.Relates u a := (relates_iff_of_horizontal rfl hw hza).2 huz
  have hza : sibling.Relates z a := hza.of_sameAxis rfl rfl
  have hpasses : sibling.passes j = true := passes_of_axis hj.symm rfl
  exact ⟨⟨a, ha, hae, hx, u, hu, hua, hleads⟩, z, hz, hza.pass hpasses hae, hb, trivial⟩

theorem not_leadsTo_of_inserted (hx : x ≠ []) (hb : b ≠ [])
    (houter : ∀ p ∈ (y, w) :: back, p.1 ≠ []) (hj : j.isHorizontal = true)
    (hw : w.isVertical = true) (hbx : ¬b ⊆ x) (hxb : j = .sibling → ¬x ⊆ b)
    (hcontext : MergedContext x j ((y, w) :: back) b .sibling context) :
    ¬LeadsTo root (Depicts [] key ((x, j) :: (b, .adjacent) :: (y, w) :: back)) context
      (standpoint [] ((x, j) :: (b, .adjacent) :: (y, w) :: back)) := by
  intro hleads
  have hlonger : ∀ p ∈ (y, w) :: back ++ [(b, sibling)], p.1 ≠ [] :=
    forall_mem_append.2 ⟨houter, forall_mem_singleton.2 hb⟩
  cases hcontext with
  | together _ =>
    obtain ⟨front, c, l, rest, heq, hsubset, hrelates, hleads⟩ :=
      exists_of_leadsTo_cons (append_ne_nil_of_left_ne_nil hx b) hleads
    have hle := length_le_of_leadsTo houter hleads
    -- the compounds would stand together at the innermost element or at the one beside it
    rcases front with _ | ⟨p, _ | ⟨q, front⟩⟩
    · cases heq
      exact hbx fun s hs => hsubset (mem_append_right x hs)
    · cases heq
      split at hrelates
      · rename_i himmediate
        have hunique := hrelates.unique himmediate (relates_standpoint x j _)
        have hlt : (standpoint [] ((y, w) :: back)).weight
            < (standpoint [] ((b, .adjacent) :: (y, w) :: back)).weight := weight_standpoint_lt _ _
        rw [hunique] at hlt
        exact Nat.lt_irrefl _ hlt
      · have hsibling : j = .sibling := by
          cases j <;> simp_all [isImmediate, isHorizontal]
        exact hxb hsibling fun s hs => hsubset (mem_append_left b hs)
    · have hcount := congrArg length heq
      simp only [length_cons, length_append, cons_append] at hcount hle
      omega
  | nearer _ =>
    obtain ⟨hsubset, -⟩ := leadsTo_cons_of_length hb (forall_mem_cons.2 ⟨hx, houter⟩)
      (by simp) hleads
    exact hbx hsubset
  | before _ =>
    obtain ⟨-, -, hleads⟩ := leadsTo_cons_of_length hx hlonger (by simp) hleads
    obtain ⟨-, hrelates, -⟩ := leadsTo_cons_of_length (houter (y, w) mem_cons_self)
      (fun p hp => hlonger p (mem_cons_of_mem _ hp)) (by simp) hleads
    -- the element beside the innermost one would have to be around it, and so around itself
    have hself := (relates_iff_of_horizontal rfl hw
      (relates_standpoint b .adjacent ((y, w) :: back))).1 hrelates
    exact Nat.lt_irrefl _ hself.weight_lt

/-- In the document of `context`, which asks for nothing else than the two contexts, both of them
lead to the last element and no merged one does. -/
structure IsMissed (x : Compound) (j : Combinator) (outer : List (Compound × Combinator))
    (b : Compound) (k : Combinator) (key : Compound) (context : List (Compound × Combinator)) :
    Prop where
  mem : ∀ p ∈ context, ∀ s ∈ p.1, s ∈ b ∨ ∃ q ∈ (x, j) :: outer, s ∈ q.1
  leadsTo : ∀ root : Element,
    (∀ a : Address, a.weight ≤ (standpoint [] context).weight → root.Has a) →
      LeadsTo root (Depicts [] key context) ((x, j) :: outer) (standpoint [] context) ∧
        LeadsTo root (Depicts [] key context) [(b, k)] (standpoint [] context)
  not_leadsTo : ∀ (root : Element) (merged : List (Compound × Combinator)),
    MergedContext x j outer b k merged →
      ¬LeadsTo root (Depicts [] key context) merged (standpoint [] context)

theorem isMissed_of_shared (hx : x ≠ []) (hb : b ≠ [])
    (houter : ∀ p ∈ front ++ (y, w) :: back, p.1 ≠ [])
    (hbx : j.isHorizontal = k.isHorizontal → ¬b ⊆ x) (haxis : w.isHorizontal = k.isHorizontal)
    (hpasses : k.passes j = true) (hfront : ∀ p ∈ front, k.passes p.2 = true) :
    IsMissed x j (front ++ (y, w) :: back) b k key ((x, j) :: front ++ (y ++ b, w) :: back) where
  mem := by
    simp only [mem_append, mem_cons]
    rintro p ((rfl | hp) | rfl | hp) s hs
    · exact .inr ⟨_, .inl rfl, hs⟩
    · exact .inr ⟨p, .inr (.inl hp), hs⟩
    · exact (mem_append.1 hs).symm.imp_right fun hs => ⟨_, .inr (.inr (.inl rfl)), hs⟩
    · exact .inr ⟨p, .inr (.inr (.inr hp)), hs⟩
  leadsTo root hroot :=
    leadsTo_of_shared (ne_adjacent_of_passes hpasses) haxis
      (forall_mem_cons.2 ⟨hpasses, hfront⟩) hroot
  not_leadsTo root merged hmerged := not_leadsTo_of_shared hx hb houter hbx (by simp) hmerged

theorem isMissed_of_inserted (hx : x ≠ []) (hb : b ≠ []) (houter : ∀ p ∈ (y, w) :: back, p.1 ≠ [])
    (hj : j.isHorizontal = true) (hw : w.isVertical = true) (hbx : ¬b ⊆ x)
    (hxb : j = .sibling → ¬x ⊆ b) :
    IsMissed x j ((y, w) :: back) b .sibling key
      ((x, j) :: (b, .adjacent) :: (y, w) :: back) where
  mem := by
    simp only [mem_cons]
    rintro p (rfl | rfl | hp) s hs
    · exact .inr ⟨_, .inl rfl, hs⟩
    · exact .inl hs
    · exact .inr ⟨p, .inr hp, hs⟩
  leadsTo root hroot := (leadsTo_standpoint hroot).of_inserted hj hw
  not_leadsTo root merged hmerged := not_leadsTo_of_inserted hx hb houter hj hw hbx hxb hmerged

/-- **What is not found can be missed.** -/
theorem exists_isMissed (hx : x ≠ []) (hb : b ≠ []) (houter : ∀ p ∈ outer, p.1 ≠ [])
    (hnil : outer ≠ []) (hpasses : k.passes j = true) (hfound : ¬isFound b k x j outer = true)
    (key : Compound) : ∃ context, IsMissed x j outer b k key context := by
  rw [isFound_iff, not_or, not_or] at hfound
  obtain ⟨hvertical, hbx, hxb⟩ := hfound
  have hbx : j.isHorizontal = k.isHorizontal → ¬b ⊆ x := fun haxis hsubset => hbx ⟨haxis, hsubset⟩
  cases hk : k.isVertical with
  | true =>
    -- at the first element around those that stand beside each other
    obtain ⟨⟨y, w⟩, hfind⟩ : ∃ p, outer.find? (·.2.isVertical) = some p := by
      rw [← Option.isSome_iff_exists, find?_isSome]
      simpa [hk, isVertical_eq] using hvertical
    obtain ⟨hw, front, back, rfl, hfront⟩ := find?_eq_some_iff_append.1 hfind
    simp only [isVertical_eq, Bool.not_eq_true'] at hk hw
    refine ⟨_, isMissed_of_shared hx hb houter hbx (hw.trans hk.symm) hpasses fun p hp => ?_⟩
    have hp := hfront p hp
    rw [isVertical_eq, Bool.not_not] at hp
    rw [Combinator.passes, hk, hp, isVertical_eq, hk]
    rfl
  | false =>
    obtain ⟨rfl, hj⟩ := eq_sibling_of_passes hk hpasses
    obtain ⟨⟨y, w⟩, back, rfl⟩ := exists_cons_of_ne_nil hnil
    cases hw : w.isVertical with
    | false =>
      rw [isVertical_eq, Bool.not_eq_false'] at hw
      have hmissed : IsMissed x j ([] ++ (y, w) :: back) b .sibling key _ :=
        isMissed_of_shared hx hb houter hbx hw hpasses fun p hp => absurd hp not_mem_nil
      exact ⟨_, hmissed⟩
    | true =>
      exact ⟨_, isMissed_of_inserted hx hb houter hj hw (hbx hj)
        fun hj hsubset => hxb ⟨hj, rfl, hw, hsubset⟩⟩

end

/-! ## Completeness -/

/-- No compound of the context is empty or asks for a pseudo-element, and the key asks for one at
most. -/
structure Selector.IsProper (s : Selector) : Prop where
  nonempty : ∀ p ∈ s.context, p.1 ≠ []
  context : ∀ p ∈ s.context, ∀ x ∈ p.1, x.isPseudoElement = false
  key : ∀ x ∈ s.key, ∀ y ∈ s.key, x.isPseudoElement = true → y.isPseudoElement = true → x = y

/-- The merged selectors match all elements that both selectors match, in whatever document and
whatever the conditions mean, as long as no element is two pseudo-elements at once. -/
def MatchAllCommon (s₁ s₂ : Selector) (merged : List Selector) : Prop :=
  ∀ (root : Element) (means : Simple → Address → Prop), PseudoElementsExclude root means →
    ∀ e, root.Has e → s₁.Matches root means e → s₂.Matches root means e →
      ∃ s ∈ merged, s.Matches root means e

section

variable {long short : Selector} {merged : List Selector} {x b : Compound} {j k : Combinator}
  {outer context : List (Compound × Combinator)}

theorem Selector.IsProper.pseudoElement?_eq {s : Selector} (h : s.IsProper) {y : Simple}
    (hmem : y ∈ s.key) (hy : y.isPseudoElement = true) : s.key.pseudoElement? = some y := by
  cases hfind : s.key.pseudoElement? with
  | none => exact absurd hy (find?_eq_none.1 hfind y hmem)
  | some p => rw [h.key p (mem_of_find?_eq_some hfind) y hmem (find?_some hfind) hy]

theorem Selector.IsProper.eq_of_mem (hlong : long.IsProper) (hshort : short.IsProper)
    (hdiffer : ¬PseudosDiffer long.key short.key) {y z : Simple} (hy : y ∈ long.key ++ short.key)
    (hz : z ∈ long.key ++ short.key) (hy' : y.isPseudoElement = true)
    (hz' : z.isPseudoElement = true) : y = z := by
  have hboth : ∀ {y z : Simple}, y ∈ long.key → z ∈ short.key → y.isPseudoElement = true →
      z.isPseudoElement = true → y = z := by
    intro y z hy hz hy' hz'
    exact Decidable.byContradiction fun hne =>
      hdiffer ⟨y, z, hlong.pseudoElement?_eq hy hy', hshort.pseudoElement?_eq hz hz', hne⟩
  rcases mem_append.1 hy with hy | hy <;> rcases mem_append.1 hz with hz | hz
  · exact hlong.key y hy z hz hy' hz'
  · exact hboth hy hz hy' hz'
  · exact (hboth hz hy hz' hy').symm
  · exact hshort.key y hy z hz hy' hz'

theorem IsMissed.not_matchAllCommon
    (h : IsMissed x j outer b k (long.key ++ short.key) context)
    (hreverse : long.context.reverse = (x, j) :: outer) (hcontext : short.context = [(b, k)])
    (hlong : long.IsProper) (hshort : short.IsProper)
    (hdiffer : ¬PseudosDiffer long.key short.key)
    (hjoin : merged = mergeSelectors.join long short ∨ merged = mergeSelectors.join short long) :
    ¬MatchAllCommon long short merged := by
  intro hall
  have hplain : ∀ p ∈ context, ∀ y ∈ p.1, y.isPseudoElement = false := by
    intro p hp y hy
    rcases h.mem p hp y hy with hy | ⟨q, hq, hy⟩
    · exact hshort.context (b, k) (hcontext ▸ mem_singleton_self _) y hy
    · exact hlong.context q (mem_reverse.1 (hreverse ▸ hq)) y hy
  let n := (standpoint [] context).weight
  have hroot : ∀ a : Address, a.weight ≤ n → (Element.full n n).Has a := fun a ha =>
    Element.has_full ha
  have hexclude : PseudoElementsExclude (.full n n)
      (Depicts [] (long.key ++ short.key) context) := fun a _ y z hy hz hya hza =>
    hlong.eq_of_mem hshort hdiffer (hya.mem_key_of_forall hplain hy)
      (hza.mem_key_of_forall hplain hz) hy hz
  have hkey : Compound.Holds (Depicts [] (long.key ++ short.key) context)
      (long.key ++ short.key) (standpoint [] context) := fun y hy => .of_mem hy
  obtain ⟨hkey₁, hkey₂⟩ := holds_append.1 hkey
  obtain ⟨hleads₁, hleads₂⟩ := h.leadsTo (.full n n) hroot
  have hshort' : short.context.reverse = [(b, k)] := by rw [hcontext, reverse_singleton]
  have hmatches := hall (.full n n) _ hexclude _ (hroot _ (Nat.le_refl n))
    ((matches_iff_leadsTo hreverse).2 ⟨hkey₁, hleads₁⟩)
    ((matches_iff_leadsTo hshort').2 ⟨hkey₂, hleads₂⟩)
  obtain ⟨-, context', hcontext', hleads⟩ := (matches_join_long hreverse hcontext hjoin).1 hmatches
  exact h.not_leadsTo _ _ hcontext' hleads

theorem PseudosDiffer.matchAllCommon (h : PseudosDiffer long.key short.key) :
    MatchAllCommon long short merged := by
  intro root means hexclude e he hlong hshort
  exact absurd ⟨hlong, hshort⟩ (h.not_matches hexclude he)

/-- **A long selector is merged completely exactly if the short context is looked for in the right
places.**  Two selectors of which exactly one has more than one combinator are merged, in whichever
order they are given.  The merged selectors match all elements that both selectors match if the keys
ask for different pseudo-elements, so that there are none, or the context of the long selector
covers that of the short one.  For proper selectors, they do so only then. -/
theorem mergeSelectors_complete_iff (hlong : 1 < long.context.length)
    (hshort : short.context.length ≤ 1) :
    (∃ merged, mergeSelectors long short = .ok merged) ∧
    (∃ merged, mergeSelectors short long = .ok merged) ∧
    ∀ merged, mergeSelectors long short = .ok merged ∨ mergeSelectors short long = .ok merged →
      (PseudosDiffer long.key short.key ∨ long.covers short = true →
        MatchAllCommon long short merged) ∧
      (long.IsProper → short.IsProper → MatchAllCommon long short merged →
        PseudosDiffer long.key short.key ∨ long.covers short = true) := by
  obtain ⟨m₁, hm₁, -⟩ := @mergeSelectors_ok long short (.inr hshort)
  obtain ⟨m₂, hm₂, -⟩ := @mergeSelectors_ok short long (.inl hshort)
  refine ⟨⟨m₁, hm₁⟩, ⟨m₂, hm₂⟩, fun merged hmerged => ?_⟩
  obtain ⟨x, j, outer, hreverse, hnil⟩ := exists_reverse_eq_cons hlong
  rcases merged_cases hshort hmerged with ⟨hdiffer, rfl⟩ | ⟨hdiffer, hjoin⟩
  · exact ⟨fun _ => hdiffer.matchAllCommon, fun _ _ _ => .inl hdiffer⟩
  rw [or_iff_right hdiffer]
  unfold Selector.covers
  rw [hreverse]
  rcases hcontext : short.context with _ | ⟨⟨b, k⟩, _ | ⟨p, rest⟩⟩
  · refine ⟨fun _ root means _ e _ hm₁ hm₂ => ?_, fun _ _ _ => rfl⟩
    exact (matches_join_single hreverse hcontext hjoin).2 ⟨hm₁, hm₂⟩
  · have hshort' : short.context.reverse = [(b, k)] := by rw [hcontext, List.reverse_singleton]
    dsimp only
    rw [Bool.or_eq_true, Bool.not_eq_true']
    constructor
    · intro hcovers root means _ e _ hm₁ hm₂
      have hfound : k.passes j = true → isFound b k x j outer = true := fun hpasses =>
        hcovers.resolve_left (by simp [hpasses])
      rw [matches_iff_leadsTo hreverse] at hm₁
      rw [matches_iff_leadsTo hshort'] at hm₂
      exact (matches_join_long hreverse hcontext hjoin).2
        ⟨⟨hm₁.1, hm₂.1⟩, exists_mergedContext_of_leadsTo hfound hm₁.2 hm₂.2⟩
    · intro hproper₁ hproper₂ hall
      cases hpasses : k.passes j with
      | false => exact .inl rfl
      | true =>
        refine .inr (Decidable.byContradiction fun hfound => ?_)
        have hlong' : ∀ p ∈ (x, j) :: outer, p.1 ≠ [] := fun p hp =>
          hproper₁.nonempty p (List.mem_reverse.1 (hreverse ▸ hp))
        obtain ⟨hx, houter⟩ := List.forall_mem_cons.1 hlong'
        have hb : b ≠ [] := hproper₂.nonempty (b, k) (hcontext ▸ List.mem_singleton_self _)
        obtain ⟨context, hmissed⟩ :=
          exists_isMissed hx hb houter hnil hpasses hfound (long.key ++ short.key)
        exact hmissed.not_matchAllCommon hreverse hcontext hproper₁ hproper₂ hdiffer hjoin hall
  · rw [hcontext, List.length_cons, List.length_cons] at hshort
    omega

theorem mergeSelectors_complete_iff_beside : ∃ merged,
    mergeSelectors besideKey aroundKey = .ok merged ∧ MatchAllCommon besideKey aroundKey merged := by
  obtain ⟨⟨merged, hmerged⟩, -, hiff⟩ :=
    @mergeSelectors_complete_iff besideKey aroundKey (by decide) (by decide)
  exact ⟨merged, hmerged, (hiff merged (.inl hmerged)).1 (.inr (by decide))⟩

/-- `.x .a .k` and `.b .k` are merged to `.x .a.b .k`, `.x .a .b .k` and `.b .x .a .k`.  None of
them matches a key in an `a` in an `x` of class `b`. -/
theorem ancestorBetween_not_complete : ∃ merged, mergeSelectors
      ⟨[([.className "x"], .descendant), ([.className "a"], .descendant)], [.className "k"]⟩
      ⟨[([.className "b"], .descendant)], [.className "k"]⟩ = .ok merged ∧
    ¬MatchAllCommon
      ⟨[([.className "x"], .descendant), ([.className "a"], .descendant)], [.className "k"]⟩
      ⟨[([.className "b"], .descendant)], [.className "k"]⟩ merged := by
  refine ⟨[⟨[([.className "x"], .descendant), ([.className "a", .className "b"], .descendant)],
      [.className "k"]⟩,
    ⟨[([.className "x"], .descendant), ([.className "a"], .descendant),
      ([.className "b"], .descendant)], [.className "k"]⟩,
    ⟨[([.className "b"], .descendant), ([.className "x"], .descendant),
      ([.className "a"], .descendant)], [.className "k"]⟩], rfl, fun hall => ?_⟩
  let means : Simple → Address → Prop := fun x e => (x, e) ∈
    [(.className "x", []), (.className "b", []), (.className "a", [0]), (.className "k", [0, 0])]
  have hexclude : PseudoElementsExclude (.mk [.mk [.mk []]]) means := by
    intro a _ x y hx _ hxa _
    cases x <;> simp_all [means, Simple.isPseudoElement]
  -- nothing is around the element of the classes `x` and `b`
  have hnone : ∀ c outer, ¬LeadsTo (.mk [.mk [.mk []]]) means ((c, .descendant) :: outer) [] := by
    rintro c outer ⟨a, -, ⟨i, d, h, -⟩, -⟩
    cases h
  have hx : ∀ {a}, Compound.Holds means [.className "x"] a → a = [] := by
    simp [Compound.Holds, means]
  have hb : ∀ {a}, Compound.Holds means [.className "b"] a → a = [] := by
    simp [Compound.Holds, means]
  obtain ⟨s, hs, -, hleads⟩ := hall (.mk [.mk [.mk []]]) means hexclude [0, 0] (by decide)
    ⟨by simp [Compound.Holds, means], [0], by decide, ⟨0, [0], rfl, List.suffix_refl _⟩,
      by simp [Compound.Holds, means], [], by decide, ⟨0, [], rfl, List.suffix_refl _⟩,
      by simp [Compound.Holds, means], trivial⟩
    ⟨by simp [Compound.Holds, means], [], by decide, ⟨0, [0], rfl, List.nil_suffix⟩,
      by simp [Compound.Holds, means], trivial⟩
  simp only [List.mem_cons, List.not_mem_nil, or_false] at hs
  rcases hs with rfl | rfl | rfl
  · obtain ⟨a, -, -, hab, -⟩ := hleads
    obtain ⟨ha, hb⟩ : a = [0] ∧ a = [] := by simpa [Compound.Holds, means] using hab
    cases ha.symm.trans hb
  · obtain ⟨a, -, -, hba, hleads⟩ := hleads
    obtain rfl := hb hba
    exact hnone _ _ hleads
  · obtain ⟨-, -, -, -, a, -, -, hxa, hleads⟩ := hleads
    obtain rfl := hx hxa
    exact hnone _ _ hleads

end

end StyleBlocks
