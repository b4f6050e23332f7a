import StyleBlocks.Proofs.Selector.Merging
import StyleBlocks.Proofs.Selector.Scenes

/-!
# Merging with a long selector

Of two selectors that are merged one may have a long context.  The other one then has one compound
in its context at most.  This compound is put together with the innermost one of the long context,
or nearer to the key, or before the long context as a whole.  There it still leads to the key only
if the combinators of the long context allow it.

Main result: `mergeSelectors_sound_iff`.
-/

namespace StyleBlocks

open mergeSelectors Selector Combinator List

variable {outer : List (Compound × Combinator)} {means : Simple → Address → Prop} {j k : Combinator}
  {b c : Compound} {root : Element} {s : Selector} {e : Address}

/-! ## Two elements that lead to a third one -/

namespace Combinator

/-- From where `k` leads to an element, it also leads to those that `j` leads to from there. -/
def passes (k j : Combinator) : Bool :=
  if k.isHorizontal = j.isHorizontal then !k.isImmediate else k.isVertical

variable {a b e : Address}

theorem Relates.of_sameAxis (h : k.Relates a e) (haxis : k.isHorizontal = j.isHorizontal)
    (hj : j.isImmediate = false) : j.Relates a e := by
  cases j with
  | child | adjacent => cases hj
  | descendant =>
    cases k with
    | child =>
      obtain ⟨i, rfl⟩ := h
      exact ⟨i, a, rfl, suffix_refl a⟩
    | descendant => exact h
    | adjacent | sibling => cases haxis
  | sibling =>
    cases k with
    | adjacent =>
      obtain ⟨i, c, rfl, rfl⟩ := h
      exact ⟨i, i + 1, c, Nat.lt_succ_self i, rfl, rfl⟩
    | sibling => exact h
    | child | descendant => cases haxis

theorem isVertical_eq (k : Combinator) : k.isVertical = !k.isHorizontal := by
  cases k <;> rfl

theorem ne_adjacent_of_passes (h : k.passes j = true) : k ≠ .adjacent := by
  rintro rfl
  cases j <;> cases h

theorem Relates.pass (hk : k.passes j = true) (ha : k.Relates a b) (hb : j.Relates b e) :
    k.Relates a e := by
  unfold passes at hk
  split at hk
  · rename_i haxis
    have hleap : k.isImmediate = false := by simpa using hk
    exact ha.trans hleap (hb.of_sameAxis haxis.symm hleap)
  rename_i haxis
  have hj : j.isHorizontal = true := by
    rw [isVertical_eq, Bool.not_eq_true'] at hk
    rw [hk] at haxis
    simpa using Ne.symm haxis
  exact (relates_iff_of_horizontal hj hk hb).2 ha

theorem eq_of_axis (haxis : j.isHorizontal = k.isHorizontal)
    (hstep : j.isImmediate = k.isImmediate) : j = k := by
  cases j <;> cases k <;> simp_all [isImmediate, isHorizontal]

theorem passes_of_axis (haxis : k.isHorizontal = j.isHorizontal) (hk : k.isImmediate = false) :
    k.passes j = true := by
  rw [passes, if_pos haxis, hk]
  rfl

theorem Relates.compare_step (ha : j.Relates a e) (hb : k.Relates b e)
    (haxis : j.isHorizontal = k.isHorizontal) (hj : j.isImmediate = true) :
    a = b ∨ k.passes j = true ∧ k.Relates b a := by
  cases hk : k.isImmediate with
  | true =>
    obtain rfl := eq_of_axis haxis (hj.trans hk.symm)
    exact .inl (ha.unique hj hb)
  | false =>
    have hnear : SameAxis j k := by
      cases j <;> cases k <;> simp_all [SameAxis, isImmediate, isHorizontal]
    rcases (relates_iff_of_step hnear ha).1 hb with h | h
    · exact .inl h.symm
    · exact .inr ⟨passes_of_axis haxis.symm hk, h⟩

theorem Relates.compare_cross (ha : j.Relates a e) (hb : k.Relates b e)
    (haxis : j.isHorizontal ≠ k.isHorizontal) (hk : k.isHorizontal = true) :
    j.passes k = true ∧ j.Relates a b := by
  have hj : j.isVertical = true := by
    rw [isVertical_eq, Bool.not_eq_true']
    rw [hk] at haxis
    simpa using haxis
  exact ⟨by rw [passes, if_neg haxis, hj], (relates_iff_of_horizontal hk hj hb).1 ha⟩

/-- **Two elements that lead to a third one** are the same, or one of them leads to the other one,
and that by a combinator that goes on to the third. -/
theorem Relates.compare (ha : j.Relates a e) (hb : k.Relates b e) :
    j.isHorizontal = k.isHorizontal ∧ a = b ∨ j.passes k = true ∧ j.Relates a b ∨
      k.passes j = true ∧ k.Relates b a := by
  by_cases haxis : j.isHorizontal = k.isHorizontal
  · cases hj : j.isImmediate with
    | true => exact (ha.compare_step hb haxis hj).imp (fun h => ⟨haxis, h⟩) .inr
    | false =>
      cases hk : k.isImmediate with
      | true => exact (hb.compare_step ha haxis.symm hk).imp (fun h => ⟨haxis, h.symm⟩) .inl
      | false =>
        obtain rfl := eq_of_axis haxis (hj.trans hk.symm)
        have hpasses : j.passes j = true := passes_of_axis rfl hj
        rcases ha.total hj hb with h | h | h
        · exact .inl ⟨rfl, h⟩
        · exact .inr (.inl ⟨hpasses, h⟩)
        · exact .inr (.inr ⟨hpasses, h⟩)
  · cases hk : k.isHorizontal with
    | true => exact .inr (.inl (ha.compare_cross hb haxis hk))
    | false =>
      have hj : j.isHorizontal = true := by
        rw [hk] at haxis
        simpa using haxis
      exact .inr (.inr (hb.compare_cross ha (Ne.symm haxis) hj))

end Combinator

/-! ## The contexts of merged selectors -/

section

theorem Compound.Holds.mono (h : c.Holds means e) (hbc : b ⊆ c) :
    b.Holds means e :=
  fun x hx => h x (hbc hx)

theorem holds_append :
    Compound.Holds means (b ++ c) e ↔ b.Holds means e ∧ c.Holds means e := by
  unfold Compound.Holds
  rw [forall_mem_append]

/-- The contexts of the selectors that are merged from one with the context `(x, j) :: outer` and
one with the context `(b, k)`, the innermost compound first. -/
inductive MergedContext (x : Compound) (j : Combinator) (outer : List (Compound × Combinator))
    (b : Compound) (k : Combinator) : List (Compound × Combinator) → Prop
  | together (h : j.isHorizontal = k.isHorizontal) :
    MergedContext x j outer b k ((x ++ b, if j.isImmediate then j else k) :: outer)
  | nearer (h : j.passes k = true) : MergedContext x j outer b k ((b, k) :: (x, j) :: outer)
  | before (h : k.passes j = true) :
    MergedContext x j outer b k ((x, j) :: (outer ++ [(b, k)]))

variable {x b key : Compound}

theorem exists_mergedContext_iff {p : List (Compound × Combinator) → Prop} :
    (∃ context, MergedContext x j outer b k context ∧ p context) ↔
      j.isHorizontal = k.isHorizontal ∧ p ((x ++ b, if j.isImmediate then j else k) :: outer) ∨
      j.passes k = true ∧ p ((b, k) :: (x, j) :: outer) ∨
      k.passes j = true ∧ p ((x, j) :: (outer ++ [(b, k)])) := by
  constructor
  · rintro ⟨_, h | h | h, hp⟩
    · exact .inl ⟨h, hp⟩
    · exact .inr (.inl ⟨h, hp⟩)
    · exact .inr (.inr ⟨h, hp⟩)
  · rintro (⟨h, hp⟩ | ⟨h, hp⟩ | ⟨h, hp⟩)
    · exact ⟨_, .together h, hp⟩
    · exact ⟨_, .nearer h, hp⟩
    · exact ⟨_, .before h, hp⟩

theorem matches_extended_iff : (s.extended k key).Matches root means e ↔
    key.Holds means e ∧ LeadsTo root means ((s.key, k) :: s.context.reverse) e := by
  rw [matches_extended]
  exact Iff.rfl

/-- Two contexts at the same element, the long one first. -/
theorem matches_joined_left :
    ((joinContexts ⟨outer.reverse, x⟩ (.single b)).extended k key).Matches root means e ↔
      key.Holds means e ∧ LeadsTo root means ((x ++ b, k) :: outer) e := by
  rw [matches_extended_iff, LeadsTo, LeadsTo]
  simp only [joinContexts, holds_mergeCompounds, holds_append]
  cases outer <;> simp [single]

theorem matches_joined_right :
    ((joinContexts (.single b) ⟨outer.reverse, x⟩).extended k key).Matches root means e ↔
      key.Holds means e ∧ LeadsTo root means ((x ++ b, k) :: outer) e := by
  rw [matches_extended_iff, LeadsTo, LeadsTo]
  simp only [joinContexts, holds_mergeCompounds, holds_append]
  simp [single, and_comm]

/-- The short context nearer to the key. -/
theorem matches_nearer :
    (((mk outer.reverse x).concat j (.single b)).extended k key).Matches root means e ↔
      key.Holds means e ∧ LeadsTo root means ((b, k) :: (x, j) :: outer) e := by
  rw [matches_extended_iff]
  simp [Selector.concat, single]

/-- The short context before the long one. -/
theorem matches_before :
    (((single b).concat k ⟨outer.reverse, x⟩).extended j key).Matches root means e ↔
      key.Holds means e ∧ LeadsTo root means ((x, j) :: (outer ++ [(b, k)])) e := by
  rw [matches_extended_iff]
  simp [Selector.concat, single]

/-- **The contexts of the merged selectors**, in whichever order the two selectors are given. -/
theorem matches_mergeAt_long :
    ((∃ s ∈ mergeAt key ⟨outer.reverse, x⟩ j (.single b) k, s.Matches root means e) ↔
      key.Holds means e ∧
        ∃ context, MergedContext x j outer b k context ∧ LeadsTo root means context e) ∧
    ((∃ s ∈ mergeAt key (.single b) k ⟨outer.reverse, x⟩ j, s.Matches root means e) ↔
      key.Holds means e ∧
        ∃ context, MergedContext x j outer b k context ∧ LeadsTo root means context e) := by
  rw [exists_mergedContext_iff]
  cases j <;> cases k <;>
    simp [mergeAt, matches_joined_left, matches_joined_right, matches_nearer, matches_before,
      Combinator.passes, isHorizontal, isVertical, isImmediate,
      and_or_left, or_comm, or_left_comm]

end

/-! ## Merging -/

section

variable {long short : Selector} {x b : Compound}

theorem matches_iff_leadsTo (h : s.context.reverse = outer) :
    s.Matches root means e ↔ s.key.Holds means e ∧ LeadsTo root means outer e := by
  rw [Matches, h]

theorem Selector.eq_extended (h : s.context.reverse = (x, j) :: outer) :
    s = (Selector.mk outer.reverse x).extended j s.key := by
  obtain ⟨context, key⟩ := s
  obtain rfl : context = outer.reverse ++ [(x, j)] := reverse_eq_cons_iff.1 h
  rfl

theorem Selector.split_extended (s : Selector) (k : Combinator) (key : Compound) :
    (s.extended k key).split = (some (s, k), key) := by
  simp [split, extended]

variable {merged : List Selector}

theorem matches_join_single (hlong : long.context.reverse = (x, j) :: outer)
    (hshort : short.context = [])
    (hjoin : merged = join long short ∨ merged = join short long) :
    (∃ s ∈ merged, s.Matches root means e) ↔
      long.Matches root means e ∧ short.Matches root means e := by
  obtain ⟨context, key⟩ := short
  obtain rfl : context = [] := hshort
  have hsplit : (mk [] key).split = (none, key) := rfl
  have hmerged : ∀ key' : Compound, (∃ s ∈ [(mk outer.reverse x).extended j key'],
      s.Matches root means e) ↔ key'.Holds means e ∧ LeadsTo root means ((x, j) :: outer) e := by
    intro key'
    simp only [mem_singleton, exists_eq_left, matches_extended_iff, reverse_reverse]
  have hkey : (mk [] key).Matches root means e ↔ key.Holds means e := and_iff_left trivial
  rw [matches_iff_leadsTo hlong, hkey]
  rw [eq_extended hlong, join, join, split_extended, hsplit] at hjoin
  rcases hjoin with rfl | rfl
  · exact (hmerged _).trans ((and_congr_left' holds_mergeCompounds).trans and_right_comm)
  · exact (hmerged _).trans
      ((and_congr_left' (holds_mergeCompounds.trans and_comm)).trans and_right_comm)

theorem matches_join_long (hlong : long.context.reverse = (x, j) :: outer)
    (hshort : short.context = [(b, k)])
    (hjoin : merged = join long short ∨ merged = join short long) :
    (∃ s ∈ merged, s.Matches root means e) ↔
      (long.key.Holds means e ∧ short.key.Holds means e) ∧
        ∃ context, MergedContext x j outer b k context ∧ LeadsTo root means context e := by
  obtain ⟨context, key⟩ := short
  obtain rfl : context = [(b, k)] := hshort
  have hsplit : (mk [(b, k)] key).split = (some (.single b, k), key) := rfl
  rw [eq_extended hlong, join, join, split_extended, hsplit] at hjoin
  rcases hjoin with rfl | rfl
  · exact matches_mergeAt_long.1.trans (and_congr_left' holds_mergeCompounds)
  · exact matches_mergeAt_long.2.trans (and_congr_left' (holds_mergeCompounds.trans and_comm))

end

/-! ## Soundness -/

/-- The second compound asks for all that the first one asks for. -/
def Compound.within (b c : Compound) : Bool :=
  b.all (· ∈ c)

theorem Compound.within_iff : b.within c = true ↔ b ⊆ c := by
  simp [within, subset_def]

/-- Where the combinator `k` leads from a compound `b` to the first element of a context, it leads
from some element that `b` asks for to the last one, too: the combinators in between go on from
there, or an element of the context that stands in the right place has the conditions of `b`. -/
def isKept (b : Compound) (k : Combinator) : List (Compound × Combinator) → Bool
  | [] => true
  | (x, j) :: outer =>
    k.passes j && (isKept b k outer || k == .sibling && b.within x) ||
      k == .child && (j == .child && b.within x || j == .descendant && b.isEmpty)

/-- The context of `short` still leads to the key when it is put before the context of `long`. -/
def Selector.anchors (long short : Selector) : Bool :=
  match long.context.reverse, short.context with
  | (x, j) :: outer, [(b, k)] => !k.passes j || isKept b k ((x, j) :: outer)
  | _, _ => true

section

variable {x b : Compound} {outer context : List (Compound × Combinator)}

theorem LeadsTo.of_append {more : List (Compound × Combinator)}
    (h : LeadsTo root means (context ++ more) e) : LeadsTo root means context e := by
  induction context generalizing e with
  | nil => trivial
  | cons p context ih =>
    obtain ⟨a, ha, hae, hholds, hleads⟩ := h
    exact ⟨a, ha, hae, hholds, ih hleads⟩

theorem Element.Has.tail {i : Nat} {a : Address} (h : root.Has (i :: a)) : root.Has a := by
  rw [Has, at?] at h
  unfold Has
  cases hat : root.at? a with
  | none => simp [hat] at h
  | some _ => rfl

/-- **What is kept still leads to the key.** -/
theorem LeadsTo.of_isKept (he : root.Has e) (hkept : isKept b k context = true)
    (h : LeadsTo root means (context ++ [(b, k)]) e) : LeadsTo root means [(b, k)] e := by
  induction context generalizing e with
  | nil => exact h
  | cons p outer ih =>
    obtain ⟨x, j⟩ := p
    obtain ⟨a, ha, hae, hholds, hleads⟩ := h
    simp only [isKept, Bool.or_eq_true, Bool.and_eq_true, beq_iff_eq, Compound.within_iff,
      List.isEmpty_iff] at hkept
    rcases hkept with ⟨hpasses, hkept | ⟨rfl, hbx⟩⟩ | ⟨rfl, ⟨rfl, hbx⟩ | ⟨rfl, rfl⟩⟩
    · obtain ⟨z, hz, hza, hb⟩ := ih ha hkept hleads
      exact ⟨z, hz, hza.pass hpasses hae, hb⟩
    · have hj : j.isHorizontal = true := by
        cases j <;> first | rfl | cases hpasses
      exact ⟨a, ha, hae.of_sameAxis hj rfl, hholds.mono hbx, trivial⟩
    · exact ⟨a, ha, hae, hholds.mono hbx, trivial⟩
    · obtain ⟨i, c, rfl, -⟩ := hae
      exact ⟨c, he.tail, ⟨i, rfl⟩, fun y hy => absurd hy not_mem_nil, trivial⟩

/-- All but the context before the long one leads only to what both contexts lead to. -/
theorem MergedContext.leadsTo (h : MergedContext x j outer b k context) (he : root.Has e)
    (hkept : k.passes j = true → isKept b k ((x, j) :: outer) = true)
    (hleads : LeadsTo root means context e) :
    LeadsTo root means ((x, j) :: outer) e ∧ LeadsTo root means [(b, k)] e := by
  cases h with
  | together haxis =>
    obtain ⟨a, ha, hae, hholds, hleads⟩ := hleads
    obtain ⟨hx, hb⟩ := holds_append.1 hholds
    obtain ⟨hj, hk⟩ : j.Relates a e ∧ k.Relates a e := by
      split at hae
      · rename_i hj
        refine ⟨hae, ?_⟩
        cases hk : k.isImmediate with
        | true => exact eq_of_axis haxis (hj.trans hk.symm) ▸ hae
        | false => exact hae.of_sameAxis haxis hk
      · rename_i hj
        exact ⟨hae.of_sameAxis haxis.symm (by simpa using hj), hae⟩
    exact ⟨⟨a, ha, hj, hx, hleads⟩, a, ha, hk, hb, trivial⟩
  | nearer hpasses =>
    obtain ⟨a, ha, hae, hb, z, hz, hza, hx, hleads⟩ := hleads
    exact ⟨⟨z, hz, hza.pass hpasses hae, hx, hleads⟩, a, ha, hae, hb, trivial⟩
  | before hpasses =>
    exact ⟨hleads.of_append, hleads.of_isKept he (hkept hpasses)⟩

/-! ### Where the short context is lost -/

theorem isKept_descendant (b : Compound) (context : List (Compound × Combinator)) :
    isKept b .descendant context = true := by
  induction context with
  | nil => rfl
  | cons p outer ih =>
    obtain ⟨x, j⟩ := p
    have hpasses : descendant.passes j = true := by cases j <;> rfl
    rw [isKept, hpasses, ih]
    rfl

/-- **One step further in**, in a document in which another element stands between an element and
what is somewhere inside it: what leads to the next element leads to the one before, or is that one.
-/
theorem leadsTo_next {rest : List (Compound × Combinator)} {key : Compound}
    (hk : k = .child ∨ k = .sibling)
    (h : LeadsTo root (Depicts [0] key ((x, j) :: rest)) [(b, k)]
      (standpoint [0] ((x, j) :: rest))) :
    k.passes j = true ∧ (LeadsTo root (Depicts [0] x rest) [(b, k)] (standpoint [0] rest) ∨
        k = .sibling ∧ b ⊆ x) ∨
      k = .child ∧ (j = .child ∧ b ⊆ x ∨ j = .descendant ∧ b = []) := by
  obtain ⟨a, ha, hae, hholds, -⟩ := h
  have hinner : b.Holds (Depicts [0] x rest) a := fun y hy => (hholds y hy).of_cons hae.weight_lt
  have hsubset : a = standpoint [0] rest → b ⊆ x := by
    rintro rfl y hy
    exact (hinner y hy).mem_key
  have hnext : j.Relates (standpoint [0] rest) (standpoint [0] ((x, j) :: rest)) :=
    relates_standpoint x j rest
  rcases hk with rfl | rfl
  · cases j with
    | child => exact .inr ⟨rfl, .inl ⟨rfl, hsubset (hae.unique rfl hnext)⟩⟩
    | descendant =>
      obtain ⟨i, hi⟩ := hae
      obtain rfl : 0 :: standpoint [0] rest = a := (cons.inj hi).2
      refine .inr ⟨rfl, .inr ⟨rfl, eq_nil_iff_forall_not_mem.2 fun y hy => ?_⟩⟩
      -- nothing holds of the element in between
      have hle := (hinner y hy).weight_le
      rw [Address.weight_cons] at hle
      omega
    | adjacent | sibling =>
      exact .inl ⟨rfl, .inl ⟨a, ha, (relates_iff_of_horizontal rfl rfl hnext).1 hae,
        hinner, trivial⟩⟩
  · have hstep : j.isHorizontal = true → Combinator.sibling.passes j = true ∧
        (LeadsTo root (Depicts [0] x rest) [(b, .sibling)] (standpoint [0] rest) ∨
          Combinator.sibling = .sibling ∧ b ⊆ x) := by
      intro hj
      refine ⟨passes_of_axis hj.symm rfl, ?_⟩
      have hadjacent : Combinator.adjacent.Relates (standpoint [0] rest)
          (standpoint [0] ((x, j) :: rest)) :=
        adjacent_relates_next hj (standpoint_ne_nil rest)
      rcases (relates_iff_of_step (.inr ⟨rfl, rfl⟩) hadjacent).1 hae with heq | hbefore
      · exact .inr ⟨rfl, hsubset heq⟩
      · exact .inl ⟨a, ha, hbefore, hinner, trivial⟩
    -- the first element inside another one has no siblings before it
    cases j with
    | child | descendant =>
      obtain ⟨l, m, d, hlm, -, hm⟩ := hae
      rw [← (cons.inj hm).1] at hlm
      exact absurd hlm (Nat.not_lt_zero l)
    | adjacent | sibling => exact .inl (hstep rfl)

/-- **What leads to the key from before the context is kept.** -/
theorem isKept_of_leadsTo (hk : k ≠ .adjacent) {key : Compound}
    (h : LeadsTo root (Depicts [0] key (context ++ [(b, k)])) [(b, k)]
      (standpoint [0] (context ++ [(b, k)]))) : isKept b k context = true := by
  by_cases hdescendant : k = .descendant
  · rw [hdescendant, isKept_descendant]
  have hk : k = .child ∨ k = .sibling := by
    cases k <;> simp_all
  induction context generalizing key with
  | nil => rfl
  | cons p outer ih =>
    simp only [isKept, Bool.or_eq_true, Bool.and_eq_true, beq_iff_eq, Compound.within_iff,
      List.isEmpty_iff]
    exact (leadsTo_next hk h).imp_left (And.imp_right (Or.imp_left ih))

end

/-- The merged selectors match only elements that both selectors match, in whatever document and
whatever the conditions mean. -/
def MatchOnlyCommon (s₁ s₂ : Selector) (merged : List Selector) : Prop :=
  ∀ (root : Element) (means : Simple → Address → Prop) (e : Address), root.Has e →
    ∀ s ∈ merged, s.Matches root means e → s₁.Matches root means e ∧ s₂.Matches root means e

section

variable {long short : Selector} {merged : List Selector}

theorem merged_cases (hshort : short.context.length ≤ 1)
    (h : mergeSelectors long short = .ok merged ∨ mergeSelectors short long = .ok merged) :
    PseudosDiffer long.key short.key ∧ merged = [] ∨ ¬PseudosDiffer long.key short.key ∧
      (merged = join long short ∨ merged = join short long) := by
  rcases h with h | h
  · obtain ⟨merged', hok, hcases⟩ := @mergeSelectors_ok long short (.inr hshort)
    obtain rfl : merged = merged' := Except.ok.inj (h.symm.trans hok)
    exact hcases.imp_right fun hjoin => ⟨hjoin.1, .inl hjoin.2⟩
  obtain ⟨merged', hok, hcases⟩ := @mergeSelectors_ok short long (.inl hshort)
  obtain rfl : merged = merged' := Except.ok.inj (h.symm.trans hok)
  exact hcases.imp (fun hnone => ⟨hnone.1.symm, hnone.2⟩)
    fun hjoin => ⟨fun hdiffer => hjoin.1 hdiffer.symm, .inr hjoin.2⟩

theorem exists_reverse_eq_cons (hlong : 1 < long.context.length) :
    ∃ x j outer, long.context.reverse = (x, j) :: outer ∧ outer ≠ [] := by
  have hlength : long.context.reverse.length = long.context.length := length_reverse
  rcases hreverse : long.context.reverse with _ | ⟨⟨x, j⟩, _ | ⟨p, outer⟩⟩
  · rw [hreverse, length_nil] at hlength
    omega
  · rw [hreverse, length_singleton] at hlength
    omega
  · exact ⟨x, j, p :: outer, rfl, cons_ne_nil _ _⟩

theorem matchOnlyCommon_iff_isKept {x b : Compound} (hlong : long.context.reverse = (x, j) :: outer)
    (hshort : short.context = [(b, k)])
    (hjoin : merged = join long short ∨ merged = join short long) :
    MatchOnlyCommon long short merged ↔
      (k.passes j = true → isKept b k ((x, j) :: outer) = true) := by
  have hshort' : short.context.reverse = [(b, k)] := by rw [hshort, reverse_singleton]
  constructor
  · intro hsound hpasses
    -- the document of the context in which the short one stands before the long one
    let context := (x, j) :: outer ++ [(b, k)]
    let key := long.key ++ short.key
    let n := (standpoint [0] context).weight
    have hleads : LeadsTo (.full n n) (Depicts [0] key context) context (standpoint [0] context) :=
      leadsTo_standpoint fun a ha => Element.has_full ha
    have hkey : key.Holds (Depicts [0] key context) (standpoint [0] context) :=
      fun y hy => .of_mem hy
    obtain ⟨s, hs, hmatches⟩ := (matches_join_long hlong hshort hjoin).2
      ⟨holds_append.1 hkey, context, .before hpasses, hleads⟩
    have hboth := hsound (.full n n) (Depicts [0] key context) _
      (Element.has_full (Nat.le_refl n)) s hs hmatches
    exact isKept_of_leadsTo (ne_adjacent_of_passes hpasses)
      ((matches_iff_leadsTo hshort').1 hboth.2).2
  · intro hkept root means e he s hs hmatches
    obtain ⟨⟨hkey₁, hkey₂⟩, context, hcontext, hleads⟩ :=
      (matches_join_long hlong hshort hjoin).1 ⟨s, hs, hmatches⟩
    obtain ⟨hleads₁, hleads₂⟩ := hcontext.leadsTo he hkept hleads
    exact ⟨(matches_iff_leadsTo hlong).2 ⟨hkey₁, hleads₁⟩,
      (matches_iff_leadsTo hshort').2 ⟨hkey₂, hleads₂⟩⟩

/-- **A long selector is merged soundly exactly if the short context keeps its hold.**  Two
selectors of which exactly one has more than one combinator are merged, in whichever order they are
given. The merged selectors match only elements that both selectors match if and only if there are
none, since the keys ask for different pseudo-elements, or the context of the short selector still
leads to the key from before the context of the long one, if it is put there. -/
theorem mergeSelectors_sound_iff (hlong : 1 < long.context.length)
    (hshort : short.context.length ≤ 1) :
    (∃ merged, mergeSelectors long short = .ok merged) ∧
    (∃ merged, mergeSelectors short long = .ok merged) ∧
    ∀ merged, mergeSelectors long short = .ok merged ∨ mergeSelectors short long = .ok merged →
      (MatchOnlyCommon long short merged ↔
        PseudosDiffer long.key short.key ∨ long.anchors short = true) := by
  obtain ⟨m₁, hm₁, -⟩ := @mergeSelectors_ok long short (.inr hshort)
  obtain ⟨m₂, hm₂, -⟩ := @mergeSelectors_ok short long (.inl hshort)
  refine ⟨⟨m₁, hm₁⟩, ⟨m₂, hm₂⟩, fun merged hmerged => ?_⟩
  obtain ⟨x, j, outer, hreverse, -⟩ := exists_reverse_eq_cons hlong
  rcases merged_cases hshort hmerged with ⟨hdiffer, rfl⟩ | ⟨hdiffer, hjoin⟩
  · exact iff_of_true (fun _ _ _ _ s hs => by cases hs) (.inl hdiffer)
  rw [or_iff_right hdiffer]
  unfold Selector.anchors
  rw [hreverse]
  rcases hcontext : short.context with _ | ⟨⟨b, k⟩, _ | ⟨p, rest⟩⟩
  · refine iff_of_true (fun root means e _ s hs hmatches => ?_) rfl
    exact (matches_join_single hreverse hcontext hjoin).1 ⟨s, hs, hmatches⟩
  · rw [matchOnlyCommon_iff_isKept hreverse hcontext hjoin]
    dsimp only
    cases k.passes j <;> simp
  · rw [hcontext, List.length_cons, List.length_cons] at hshort
    omega

/-- `.x + .a ~ .k`. -/
def besideKey : Selector :=
  ⟨[([.className "x"], .adjacent), ([.className "a"], .sibling)], [.className "k"]⟩

/-- `.b > .k`.  What is around the key is around the elements beside it. -/
def aroundKey : Selector :=
  ⟨[([.className "b"], .child)], [.className "k"]⟩

theorem mergeSelectors_sound_iff_beside : ∃ merged,
    mergeSelectors besideKey aroundKey = .ok merged ∧ MatchOnlyCommon besideKey aroundKey merged := by
  obtain ⟨⟨merged, hmerged⟩, -, hiff⟩ :=
    @mergeSelectors_sound_iff besideKey aroundKey (by decide) (by decide)
  exact ⟨merged, hmerged, (hiff merged (.inl hmerged)).2 (.inr (by decide))⟩

/-- `.x > .a + .k` and `.b > .k` are merged to `.b > .x > .a + .k`, where `.b` is around `.x` and
not around the key. -/
theorem parentBefore_not_sound : ∃ merged, mergeSelectors
      ⟨[([.className "x"], .child), ([.className "a"], .adjacent)], [.className "k"]⟩
      ⟨[([.className "b"], .child)], [.className "k"]⟩ = .ok merged ∧
    ¬MatchOnlyCommon
      ⟨[([.className "x"], .child), ([.className "a"], .adjacent)], [.className "k"]⟩
      ⟨[([.className "b"], .child)], [.className "k"]⟩ merged := by
  refine ⟨[⟨[([.className "b"], .child), ([.className "x"], .child), ([.className "a"], .adjacent)],
    [.className "k"]⟩], rfl, fun hsound => ?_⟩
  -- in a `b` there is an `x`, and in it an `a` and a `k`
  obtain ⟨-, -, a, -, ⟨i, hi⟩, hb, -⟩ := hsound (.mk [.mk [.mk [], .mk []]])
    (fun x e => (x, e) ∈ [(.className "b", []), (.className "x", [0]), (.className "a", [0, 0]),
      (.className "k", [1, 0])]) [1, 0] (by decide) _ List.mem_cons_self
    ⟨by simp [Compound.Holds], [0, 0], by decide, ⟨0, [0], rfl, rfl⟩, by simp [Compound.Holds],
      [0], by decide, ⟨0, rfl⟩, by simp [Compound.Holds],
      [], by decide, ⟨0, rfl⟩, by simp [Compound.Holds], trivial⟩
  obtain rfl : [0] = a := (List.cons.inj hi).2
  simp [Compound.Holds] at hb

end

end StyleBlocks
