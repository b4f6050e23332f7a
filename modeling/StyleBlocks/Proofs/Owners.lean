import Mathlib.Order.Nat
import StyleBlocks.Reservations

/-!
# What belongs to one block each

A table has the owners of names or of GUIDs.  What a block asks for is searched in a sequence of
candidates: the first one that no other block has is noted, unless the block has it already.  The
owners that are noted stay, so a search that is made again goes the same way.

Main result: `Owners.IsFirst.again`.
-/

namespace StyleBlocks

namespace Owners

variable {f : Nat → String} {i j : Nat} {identifier x : String} {t t' : List (String × String)}

/-- Another block has it. -/
def IsTaken (t : List (String × String)) (identifier x : String) : Prop :=
  ∃ owner, t.lookup x = some owner ∧ owner ≠ identifier

/-- The first candidate that no other block has. -/
structure IsFirst (t : List (String × String)) (identifier : String) (f : Nat → String) (i : Nat) :
    Prop where
  free : ¬IsTaken t identifier (f i)
  before : ∀ j < i, IsTaken t identifier (f j)

def noted (t : List (String × String)) (identifier x : String) : List (String × String) :=
  if (t.lookup x).isSome then t else (x, identifier) :: t

/-- No owner changes. -/
def StaysIn (t t' : List (String × String)) : Prop :=
  ∀ x owner, t.lookup x = some owner → t'.lookup x = some owner

theorem lookup_noted (t : List (String × String)) (identifier x y : String) :
    (noted t identifier x).lookup y
      = if y = x ∧ t.lookup x = none then some identifier else t.lookup y := by
  unfold noted
  cases h : t.lookup x with
  | some owner => simp
  | none =>
    by_cases hy : y = x
    · simp [hy]
    · simp [List.lookup_cons, hy, beq_false_of_ne hy]

theorem staysIn_noted : StaysIn t (noted t identifier x) := by
  intro y owner hy
  rw [lookup_noted, if_neg, hy]
  rintro ⟨rfl, hnone⟩
  rw [hy] at hnone
  cases hnone

theorem StaysIn.trans {t'' : List (String × String)} (h : StaysIn t t') (h' : StaysIn t' t'') :
    StaysIn t t'' :=
  fun x owner hx => h' x owner (h x owner hx)

theorem StaysIn.isTaken (h : StaysIn t t') (hx : IsTaken t identifier x) :
    IsTaken t' identifier x := by
  obtain ⟨owner, howner, hne⟩ := hx
  exact ⟨owner, h x owner howner, hne⟩

theorem lookup_noted_self (h : ¬IsTaken t identifier x) :
    (noted t identifier x).lookup x = some identifier := by
  rw [lookup_noted]
  cases hx : t.lookup x with
  | none => simp
  | some owner =>
    rw [if_neg (by simp)]
    by_contra hne
    exact h ⟨owner, hx, fun heq => hne (congrArg some heq)⟩

theorem IsTaken.mem (h : IsTaken t identifier x) : x ∈ t.map Prod.fst := by
  obtain ⟨owner, howner, -⟩ := h
  obtain ⟨l₁, l₂, hl, -⟩ := List.lookup_eq_some_iff.1 howner
  simp [hl]

theorem IsFirst.unique (hi : IsFirst t identifier f i) (hj : IsFirst t identifier f j) : i = j := by
  rcases Nat.lt_trichotomy i j with h | h | h
  · exact absurd (hj.before i h) hi.free
  · exact h
  · exact absurd (hi.before j h) hj.free

theorem exists_isFirst {n : Nat} (h : ∃ i < n, ¬IsTaken t identifier (f i)) :
    ∃ i < n, IsFirst t identifier f i := by
  classical
  obtain ⟨i, hi, hfree⟩ := h
  have hex : ∃ i, ¬IsTaken t identifier (f i) := ⟨i, hfree⟩
  exact ⟨Nat.find hex, (Nat.find_min' hex hfree).trans_lt hi, Nat.find_spec hex,
    fun j hj => not_not.1 (Nat.find_min hex hj)⟩

/-- **A search that is made again finds the same candidate**, and nothing more is noted. -/
theorem IsFirst.again (h : IsFirst t identifier f i) (hk : StaysIn (noted t identifier (f i)) t') :
    t'.lookup (f i) = some identifier ∧ IsFirst t' identifier f i ∧ noted t' identifier (f i) = t' := by
  have howner := hk _ _ (lookup_noted_self h.free)
  refine ⟨howner, ⟨?_, fun j hj => (staysIn_noted.trans hk).isTaken (h.before j hj)⟩, ?_⟩
  · rintro ⟨owner, howner', hne⟩
    exact hne (Option.some.inj (howner'.symm.trans howner))
  · rw [noted, howner]
    rfl

end Owners

end StyleBlocks
