import Mathlib.Data.Finset.Card
import Mathlib.Logic.Function.Iterate
import StyleBlocks.Proofs.Owners

/-!
# The search for a GUID

The GUID of a block is the first one of a chain that no other block has.  A chain that has gone through
more GUIDs than are taken without finding one has come back to where it was, so the search goes on
forever.

Main result: `Reservations.reserveGuids_distinct`.
-/

namespace StyleBlocks

def IsGuid (guid : String) : Prop :=
  guid.toList.length = 5 ∧ ∀ c ∈ guid.toList, (c.isDigit || c.isLower) = true

theorem isGuid_guidOf (text : String) : IsGuid (guidOf text) := by
  have hdigit : ∀ m < 36, ((digit36 m).isDigit || (digit36 m).isLower) = true := by decide
  have hdigits : ∀ k n, (lowDigits k n).length = k ∧
      ∀ c ∈ lowDigits k n, (c.isDigit || c.isLower) = true := by
    intro k
    induction k with
    | zero => exact fun n => ⟨rfl, List.forall_mem_nil _⟩
    | succ k ih =>
      intro n
      obtain ⟨hlength, hall⟩ := ih (n / 36)
      exact ⟨congrArg (· + 1) hlength,
        List.forall_mem_cons.2 ⟨hdigit _ (Nat.mod_lt n (by decide)), hall⟩⟩
  rw [IsGuid, guidOf, String.toList_ofList]
  exact hdigits 5 _

namespace Reservations

open Owners

variable {r r' : Reservations} {identifier guid : String} {i : Nat}
  {collision : Option (String × String)}

theorem nameOwner?_reserveGuid {collision : Option BlockError}
    (h : r.reserveGuid identifier = some (guid, collision, r')) (name : String) :
    r'.nameOwner? name = r.nameOwner? name := by
  obtain ⟨found, -, hf⟩ := Option.map_eq_some_iff.1 h
  cases hf
  split <;> rfl

theorem eq_duplicateGuid_of_reserveGuid {e : BlockError}
    (h : r.reserveGuid identifier = some (guid, some e, r')) :
    ∃ taken owner, e = .duplicateGuid taken identifier owner := by
  obtain ⟨found, -, hf⟩ := Option.map_eq_some_iff.1 h
  obtain ⟨taken, -, rfl⟩ := Option.map_eq_some_iff.1 (congrArg (·.2.1) hf)
  exact ⟨_, _, rfl⟩

/-! ## The chain of a block -/

def nextGuid (identifier guid : String) : String :=
  guidOf (identifier ++ guid)

def guidChain (identifier : String) (i : Nat) : String :=
  (nextGuid identifier)^[i] (guidOf identifier)

theorem isGuid_guidChain (identifier : String) (i : Nat) : IsGuid (guidChain identifier i) := by
  cases i with
  | zero => exact isGuid_guidOf identifier
  | succ i =>
    rw [guidChain, Function.iterate_succ_apply']
    exact isGuid_guidOf _

theorem findGuid_of_isFirst {tries : Nat}
    (h : IsFirst r.guids identifier (fun i => (nextGuid identifier)^[i] guid) i) (hi : i < tries) :
    r.findGuid identifier guid collision tries = some ((nextGuid identifier)^[i] guid,
      collision <|> if i = 0 then none else (r.guidOwner? guid).map (guid, ·)) := by
  induction i generalizing guid collision tries with
  | zero =>
    obtain ⟨tries, rfl⟩ := Nat.exists_eq_succ_of_ne_zero (Nat.ne_of_gt hi)
    rw [findGuid]
    cases howner : r.guidOwner? guid with
    | none => simp
    | some owner =>
      have howner' : owner = identifier := by
        by_contra hne
        exact h.free ⟨owner, howner, hne⟩
      simp [howner']
  | succ i ih =>
    obtain ⟨tries, rfl⟩ := Nat.exists_eq_succ_of_ne_zero (Nat.ne_zero_of_lt hi)
    obtain ⟨owner, howner, hne⟩ := h.before 0 (Nat.succ_pos i)
    have howner' : r.guidOwner? guid = some owner := howner
    have hnext : IsFirst r.guids identifier
        (fun i => (nextGuid identifier)^[i] (nextGuid identifier guid)) i :=
      ⟨h.free, fun j hj => h.before (j + 1) (Nat.succ_lt_succ hj)⟩
    rw [findGuid, howner']
    dsimp only
    rw [if_neg hne, ← nextGuid, ih hnext (Nat.lt_of_succ_lt_succ hi)]
    cases collision <;> simp

theorem findGuid_of_isTaken {tries : Nat}
    (h : ∀ i < tries, IsTaken r.guids identifier ((nextGuid identifier)^[i] guid)) :
    r.findGuid identifier guid collision tries = none := by
  induction tries generalizing guid collision with
  | zero => rfl
  | succ tries ih =>
    obtain ⟨owner, howner, hne⟩ := h 0 (Nat.succ_pos tries)
    have howner' : r.guidOwner? guid = some owner := howner
    rw [findGuid, howner']
    dsimp only
    rw [if_neg hne]
    exact ih fun i hi => h (i + 1) (Nat.succ_lt_succ hi)

/-- **A chain that has left no GUID for more members than are taken never leaves one**: two of these
members are the same, and from the second one on the chain repeats what came after the first. -/
theorem isTaken_iterate {t : List (String × String)}
    (h : ∀ i < t.length + 1, IsTaken t identifier ((nextGuid identifier)^[i] guid)) (m : Nat) :
    IsTaken t identifier ((nextGuid identifier)^[m] guid) := by
  have hcard : (t.map Prod.fst).toFinset.card < (Finset.range (t.length + 1)).card := by
    rw [Finset.card_range, Nat.lt_succ_iff]
    exact (List.toFinset_card_le _).trans_eq (List.length_map _)
  obtain ⟨i, j, hij, hj, heq⟩ : ∃ i j, i < j ∧ j < t.length + 1 ∧
      (nextGuid identifier)^[i] guid = (nextGuid identifier)^[j] guid := by
    obtain ⟨i, hi, j, hj, hne, heq⟩ := Finset.exists_ne_map_eq_of_card_lt_of_maps_to hcard
      (f := fun i => (nextGuid identifier)^[i] guid)
      fun i hi => List.mem_toFinset.2 (h i (Finset.mem_range.1 hi)).mem
    rcases Nat.lt_or_gt_of_ne hne with hlt | hlt
    · exact ⟨i, j, hlt, Finset.mem_range.1 hj, heq⟩
    · exact ⟨j, i, hlt, Finset.mem_range.1 hi, heq.symm⟩
  induction m using Nat.strong_induction_on with
  | _ m ih =>
    rcases Nat.lt_or_ge m j with hm | hm
    · exact h m (hm.trans hj)
    -- the member came before, as many steps earlier as the circle is long
    have hback : (nextGuid identifier)^[m] guid = (nextGuid identifier)^[m - j + i] guid := by
      rw [Function.iterate_add_apply, heq, ← Function.iterate_add_apply]
      congr 2
      omega
    rw [hback]
    exact ih (m - j + i) (by omega)

/-! ## The GUID for a block -/

/-- What is reported if the GUID for a block is the member `i` of its chain. -/
def guidReport (r : Reservations) (identifier : String) (i : Nat) : Option BlockError :=
  if i = 0 then none
  else (r.guidOwner? (guidOf identifier)).map (.duplicateGuid (guidOf identifier) identifier)

theorem reserveGuid_of_isFirst (h : IsFirst r.guids identifier (guidChain identifier) i) :
    r.reserveGuid identifier = some (guidChain identifier i, r.guidReport identifier i,
      { r with guids := noted r.guids identifier (guidChain identifier i) }) := by
  have hi : i < r.guids.length + 1 := by
    by_contra hlt
    exact h.free (isTaken_iterate (fun j hj => h.before j (by omega)) i)
  have hfind : r.findGuid identifier (guidOf identifier) none (r.guids.length + 1)
      = some (guidChain identifier i, if i = 0 then none
        else (r.guidOwner? (guidOf identifier)).map (guidOf identifier, ·)) :=
    findGuid_of_isFirst h hi
  rw [reserveGuid, hfind, Option.map_some]
  refine congrArg some (Prod.ext rfl (Prod.ext ?_ ?_))
  · dsimp only [guidReport]
    split
    · rfl
    · exact Option.map_map ..
  · dsimp only [noted]
    rw [apply_ite (Reservations.mk r.rename r.names), guidOwner?]

/-- **The GUID for a block is the first of its chain that no other block has.** -/
theorem exists_of_reserveGuid {answer : String × Option BlockError × Reservations}
    (h : r.reserveGuid identifier = some answer) :
    ∃ i, IsFirst r.guids identifier (guidChain identifier) i ∧ answer = (guidChain identifier i,
      r.guidReport identifier i, { r with guids := noted r.guids identifier (guidChain identifier i) }) := by
  by_cases hex : ∃ i < r.guids.length + 1, ¬IsTaken r.guids identifier (guidChain identifier i)
  · obtain ⟨i, -, hi⟩ := exists_isFirst hex
    exact ⟨i, hi, Option.some.inj (h.symm.trans (reserveGuid_of_isFirst hi))⟩
  · rw [reserveGuid, findGuid_of_isTaken fun i hi => by_contra fun hfree => hex ⟨i, hi, hfree⟩] at h
    cases h

theorem reserveGuid_ne_empty {collision : Option BlockError}
    (h : r.reserveGuid identifier = some (guid, collision, r')) : guid ≠ "" := by
  rintro rfl
  obtain ⟨i, -, hanswer⟩ := exists_of_reserveGuid h
  have hempty : "" = guidChain identifier i := congrArg Prod.fst hanswer
  have hlength := (isGuid_guidChain identifier i).1
  rw [← hempty] at hlength
  cases hlength

/-- The search for a GUID never ends, however many GUIDs it tries. -/
def SearchesForever (r : Reservations) (identifier : String) : Prop :=
  ∀ tries, r.findGuid identifier (guidOf identifier) none tries = none

/-- **There is no GUID for a block exactly if the search for one never ends.** -/
theorem reserveGuid_eq_none_iff : r.reserveGuid identifier = none ↔ r.SearchesForever identifier := by
  constructor
  · intro h tries
    refine findGuid_of_isTaken fun i _ => ?_
    by_contra hfree
    obtain ⟨j, -, hj⟩ := exists_isFirst (f := guidChain identifier) ⟨i, Nat.lt_succ_self i, hfree⟩
    rw [reserveGuid_of_isFirst hj] at h
    cases h
  · intro h
    rw [reserveGuid, h, Option.map_none]

/-! ## Any requests -/

/-- The answers to requests for GUIDs, and what is taken behind them.  There are none if one of the
searches never ends. -/
def reserveGuids (r : Reservations) :
    List String → Option (List (String × Option BlockError) × Reservations)
  | [] => some ([], r)
  | identifier :: identifiers => do
    let (guid, collision, r) ← r.reserveGuid identifier
    let (answers, r) ← r.reserveGuids identifiers
    return ((guid, collision) :: answers, r)

variable {identifiers : List String} {answers : List (String × Option BlockError)}

theorem reserveGuids_cons_eq_some (h : r.reserveGuids (identifier :: identifiers) = some (answers, r')) :
    ∃ i answers', IsFirst r.guids identifier (guidChain identifier) i ∧
      answers = (guidChain identifier i, r.guidReport identifier i) :: answers' ∧
      reserveGuids { r with guids := noted r.guids identifier (guidChain identifier i) } identifiers
        = some (answers', r') := by
  obtain ⟨answer, hanswer, h⟩ := Option.bind_eq_some_iff.1 h
  obtain ⟨i, hi, rfl⟩ := exists_of_reserveGuid hanswer
  obtain ⟨⟨answers', r''⟩, hanswers, h⟩ := Option.bind_eq_some_iff.1 h
  cases h
  exact ⟨i, answers', hi, rfl, hanswers⟩

theorem reserveGuid_again (h : IsFirst r.guids identifier (guidChain identifier) i)
    (hk : StaysIn (noted r.guids identifier (guidChain identifier i)) r'.guids) :
    r'.reserveGuid identifier = some (guidChain identifier i, r.guidReport identifier i, r') := by
  obtain ⟨-, hfirst, hnoted⟩ := h.again hk
  have hreport : r'.guidReport identifier i = r.guidReport identifier i := by
    unfold guidReport
    split
    · rfl
    rename_i hi
    obtain ⟨owner, howner, -⟩ : IsTaken r.guids identifier (guidOf identifier) :=
      h.before 0 (Nat.pos_of_ne_zero hi)
    rw [guidOwner?, guidOwner?, howner, staysIn_noted.trans hk _ _ howner]
  rw [reserveGuid_of_isFirst hfirst, hnoted, hreport]

theorem guidReport_isSome_iff (h : IsFirst r.guids identifier (guidChain identifier) i) :
    (r.guidReport identifier i).isSome = true ↔ guidChain identifier i ≠ guidOf identifier := by
  cases i with
  | zero => simp [guidReport, guidChain]
  | succ i =>
    have hfirst : IsTaken r.guids identifier (guidOf identifier) := h.before 0 (Nat.succ_pos i)
    refine iff_of_true ?_ fun heq => h.free (heq ▸ hfirst)
    obtain ⟨owner, howner, -⟩ := hfirst
    simp [guidReport, guidOwner?, howner]

theorem forall₂_reserveGuids (h : r.reserveGuids identifiers = some (answers, r')) :
    StaysIn r.guids r'.guids ∧
    List.Forall₂ (fun identifier answer => ∃ (before : Reservations) (i : Nat),
      IsFirst before.guids identifier (guidChain identifier) i ∧
      answer = (guidChain identifier i, before.guidReport identifier i) ∧
      StaysIn (noted before.guids identifier (guidChain identifier i)) r'.guids) identifiers answers := by
  induction identifiers generalizing r answers with
  | nil =>
    cases h
    exact ⟨fun _ _ h => h, .nil⟩
  | cons identifier identifiers ih =>
    obtain ⟨i, answers', hi, rfl, hanswers⟩ := reserveGuids_cons_eq_some h
    obtain ⟨hkeeps, hall⟩ := ih hanswers
    exact ⟨staysIn_noted.trans hkeeps, .cons ⟨r, i, hi, rfl, hkeeps⟩ hall⟩

/-- **Different blocks have different GUIDs, and every block keeps its own.**  After any requests that
end, every GUID that was given out has five digits, and a collision came with it exactly if it is not
the GUID computed from the identifier alone; asking for it again gives the same answer and changes
nothing; and a GUID was given out for one identifier only. -/
theorem reserveGuids_distinct {rename : Bool}
    (h : (new rename).reserveGuids identifiers = some (answers, r)) :
    answers.length = identifiers.length ∧
      (∀ p ∈ identifiers.zip answers, IsGuid p.2.1 ∧ (p.2.2.isSome = true ↔ p.2.1 ≠ guidOf p.1) ∧
        r.reserveGuid p.1 = some (p.2.1, p.2.2, r)) ∧
      ∀ p ∈ identifiers.zip answers, ∀ q ∈ identifiers.zip answers, p.2.1 = q.2.1 → p.1 = q.1 := by
  obtain ⟨hlength, hzip⟩ := List.forall₂_iff_zip.1 (forall₂_reserveGuids h).2
  refine ⟨hlength.symm, ?_, ?_⟩
  · rintro ⟨identifier, answer⟩ hp
    obtain ⟨before, i, hi, rfl, hkeeps⟩ := hzip hp
    exact ⟨isGuid_guidChain identifier i, guidReport_isSome_iff hi, reserveGuid_again hi hkeeps⟩
  · rintro ⟨a, answer⟩ hp ⟨b, answer'⟩ hq heq
    obtain ⟨before, i, hi, rfl, hkeeps⟩ := hzip hp
    obtain ⟨before', j, hj, rfl, hkeeps'⟩ := hzip hq
    have ha := (hi.again hkeeps).1
    have hb := (hj.again hkeeps').1
    rw [show guidChain a i = guidChain b j from heq] at ha
    exact Option.some.inj (ha.symm.trans hb)

/-- Two identifiers with the same hash: the second one is given the next GUID of its chain. -/
theorem reserveGuids_distinct_collision : ∃ r,
    (new true).reserveGuids ["sdwdsh.css", "jxoivi.css"] = some ([("fne3d", none),
      ("p1o88", some (.duplicateGuid "fne3d" "jxoivi.css" "sdwdsh.css"))], r) ∧
    guidOf "sdwdsh.css" = guidOf "jxoivi.css" ∧
    r.reserveGuid "jxoivi.css" = some ("p1o88",
      some (.duplicateGuid "fne3d" "jxoivi.css" "sdwdsh.css"), r) := by
  have hrun : (new true).reserveGuids ["sdwdsh.css", "jxoivi.css"] = some ([("fne3d", none),
      ("p1o88", some (.duplicateGuid "fne3d" "jxoivi.css" "sdwdsh.css"))],
      ⟨true, [], [("p1o88", "jxoivi.css"), ("fne3d", "sdwdsh.css")]⟩) := by
    decide +kernel
  obtain ⟨-, hanswers, -⟩ := reserveGuids_distinct hrun
  exact ⟨_, hrun, by decide +kernel, (hanswers ("jxoivi.css", "p1o88", _) (by simp)).2.2⟩

end Reservations

end StyleBlocks
