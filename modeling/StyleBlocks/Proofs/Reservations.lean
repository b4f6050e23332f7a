import Mathlib.Data.List.Nodup
import Mathlib.Data.List.Perm.Subperm
import Mathlib.Data.List.Range
import StyleBlocks.Proofs.Owners
import StyleBlocks.Proofs.Token.Identifiers

/-!
# Names belong to one block each

Main result: `Reservations.reserveNames_stable`.
-/

namespace StyleBlocks

namespace Reservations

open Owners

variable {r r' : Reservations} {i n : Nat} {identifier name unique : String}

theorem numbered_injective (name : String) : Function.Injective (numbered name) := by
  intro m n h
  have hl := congrArg String.toList h
  simp only [numbered, String.toList_append, List.append_cancel_left_eq,
    Nat.toString_eq_repr, Nat.toList_repr] at hl
  rw [← Nat.ofDigitChars_ten_toDigits (n := m), hl, Nat.ofDigitChars_ten_toDigits]

/-- The names that are tried for a block that asks for `name`: `name`, `name-2`, `name-3`, ... -/
def candidate (name : String) : Nat → String
  | 0 => name
  | i + 1 => numbered name (2 + i)

theorem candidate_injective (name : String) : Function.Injective (candidate name) := by
  have hne : ∀ n, name ≠ numbered name n := by
    intro n h
    have hl := congrArg (fun s => s.toList.length) h
    simp [numbered] at hl
  rintro (_ | i) (_ | j) h
  · rfl
  · exact absurd h (hne _)
  · exact absurd h.symm (hne _)
  · have := numbered_injective name h
    omega

/-- **One of the candidates is free**, among more of them than names are taken. -/
theorem exists_isFirst_candidate (t : List (String × String)) (identifier name : String) :
    ∃ i < t.length + 1, IsFirst t identifier (candidate name) i := by
  refine exists_isFirst ?_
  by_contra hall
  have hsub : (List.range (t.length + 1)).map (candidate name) ⊆ t.map Prod.fst := by
    intro x hx
    obtain ⟨i, hi, rfl⟩ := List.mem_map.1 hx
    exact IsTaken.mem (by_contra fun hfree => hall ⟨i, List.mem_range.1 hi, hfree⟩)
  have := (List.subperm_of_subset (List.nodup_range.map (candidate_injective name)) hsub).length_le
  simp only [List.length_map, List.length_range] at this
  omega

theorem isAvailable_eq_false_iff :
    r.isAvailable identifier name = false ↔ IsTaken r.names identifier name := by
  unfold isAvailable IsTaken nameOwner?
  cases r.names.lookup name <;> simp

theorem firstAvailable_eq {tries : Nat} (hi : i ≤ tries)
    (hfree : r.isAvailable identifier (numbered name (n + i)) = true)
    (hbefore : ∀ j < i, r.isAvailable identifier (numbered name (n + j)) = false) :
    r.firstAvailable identifier name n tries = numbered name (n + i) := by
  induction i generalizing n tries with
  | zero => cases tries <;> simp_all [firstAvailable]
  | succ i ih =>
    obtain ⟨tries, rfl⟩ := Nat.exists_eq_succ_of_ne_zero (Nat.ne_zero_of_lt hi)
    have hsucc : ∀ j, n + 1 + j = n + (j + 1) := by omega
    rw [firstAvailable, if_neg (by simpa using hbefore 0 (Nat.succ_pos i)),
      ih (Nat.le_of_succ_le_succ hi) (by rwa [hsucc]) fun j hj => ?_, hsucc]
    rw [hsucc]
    exact hbefore (j + 1) (Nat.succ_lt_succ hj)

theorem claimName_eq (r : Reservations) (identifier name : String) :
    r.claimName identifier name = { r with names := noted r.names identifier name } := by
  unfold claimName noted nameOwner?
  split <;> rfl

/-- **A block is given the first candidate that no other block has.**  Without renaming this is the
name that it asks for, or there is none. -/
theorem reserveName_spec (r : Reservations) (name identifier : String) :
    (∃ i, IsFirst r.names identifier (candidate name) i ∧ (i = 0 ∨ r.rename = true) ∧
      r.reserveName name identifier = .ok (candidate name i,
        { r with names := noted r.names identifier (candidate name i) })) ∨
    r.rename = false ∧ ∃ owner, r.nameOwner? name = some owner ∧ owner ≠ identifier ∧
      r.reserveName name identifier = .error (.duplicateName name owner identifier) := by
  have hself : ¬IsTaken r.names identifier name → r.reserveName name identifier
      = .ok (name, { r with names := noted r.names identifier name }) := by
    intro hfree
    rw [← claimName_eq, reserveName]
    cases howner : r.nameOwner? name with
    | none => rfl
    | some owner =>
      have heq : owner = identifier := by_contra fun hne => hfree ⟨owner, howner, hne⟩
      simp [claimName, howner, heq]
  obtain ⟨i, hlt, hi⟩ := exists_isFirst_candidate r.names identifier name
  cases i with
  | zero => exact .inl ⟨0, hi, .inl rfl, hself hi.free⟩
  | succ i =>
    obtain ⟨owner, howner, hne⟩ := hi.before 0 (Nat.succ_pos i)
    have howner' : r.nameOwner? name = some owner := howner
    by_cases hrename : r.rename = true
    · have hfound : r.firstAvailable identifier name 2 r.names.length = candidate name (i + 1) := by
        refine firstAvailable_eq (by omega) ?_ fun j hj => ?_
        · exact Bool.not_eq_false _ ▸ mt isAvailable_eq_false_iff.1 hi.free
        · exact isAvailable_eq_false_iff.2 (hi.before (j + 1) (Nat.succ_lt_succ hj))
      refine .inl ⟨i + 1, hi, .inr hrename, ?_⟩
      rw [reserveName, howner']
      dsimp only
      rw [if_neg hne, if_pos hrename, hfound, claimName_eq]
    · exact .inr ⟨by simpa using hrename, owner, howner', hne,
        by simp [reserveName, howner', hne, hrename]⟩

section

variable (h : r.reserveName name identifier = .ok (unique, r'))

include h

theorem exists_of_reserveName :
    ∃ i, IsFirst r.names identifier (candidate name) i ∧ (i = 0 ∨ r.rename = true) ∧
      unique = candidate name i ∧ r' = { r with names := noted r.names identifier unique } := by
  obtain ⟨i, hi, hrename, hok⟩ | ⟨-, owner, -, -, herror⟩ := r.reserveName_spec name identifier
  · cases h.symm.trans hok
    exact ⟨i, hi, hrename, rfl, rfl⟩
  · cases h.symm.trans herror

theorem reserveName_ok : r'.nameOwner? unique = some identifier ∧
      (∀ x owner, r.nameOwner? x = some owner → r'.nameOwner? x = some owner) ∧
      (isIdentifier name = true → isIdentifier unique = true) := by
  obtain ⟨i, hi, -, rfl, rfl⟩ := exists_of_reserveName h
  refine ⟨lookup_noted_self hi.free, staysIn_noted, fun hname => ?_⟩
  cases i with
  | zero => exact hname
  | succ i => exact isIdentifier_numbered hname (2 + i)

theorem eq_or_numbered_of_reserveName :
    unique = name ∧ (∀ owner, r.nameOwner? name = some owner → owner = identifier) ∨
      (∃ owner, r.nameOwner? name = some owner ∧ owner ≠ identifier) ∧
        ∃ i, 2 ≤ i ∧ unique = numbered name i := by
  obtain ⟨i, hi, -, rfl, rfl⟩ := exists_of_reserveName h
  cases i with
  | zero => exact .inl ⟨rfl, fun owner ho => by_contra fun hne => hi.free ⟨owner, ho, hne⟩⟩
  | succ i => exact .inr ⟨hi.before 0 (Nat.succ_pos i), 2 + i, Nat.le_add_right 2 i, rfl⟩

theorem nameOwner?_of_reserveName {x owner : String} (hx : r'.nameOwner? x = some owner) :
    r.nameOwner? x = some owner ∨ x = unique ∧ owner = identifier := by
  obtain ⟨i, -, -, -, rfl⟩ := exists_of_reserveName h
  rw [nameOwner?, lookup_noted] at hx
  split at hx
  · rename_i hnew
    exact .inr ⟨hnew.1, (Option.some.inj hx).symm⟩
  · exact .inl hx

end

/-! ## Any requests -/

/-- The answer to the request of an identifier for a name, and what is taken behind it.  A request
that fails takes nothing. -/
def grantName (r : Reservations) (request : String × String) :
    Except BlockError String × Reservations :=
  match r.reserveName request.1 request.2 with
  | .ok (unique, r') => (.ok unique, r')
  | .error e => (.error e, r)

def reserveNames (r : Reservations) :
    List (String × String) → List (Except BlockError String) × Reservations
  | [] => ([], r)
  | request :: requests =>
    ((r.grantName request).1 :: ((r.grantName request).2.reserveNames requests).1,
      ((r.grantName request).2.reserveNames requests).2)

variable {request : String × String}

theorem grantName_spec (r : Reservations) (request : String × String) :
    (∃ i, IsFirst r.names request.2 (candidate request.1) i ∧ (i = 0 ∨ r.rename = true) ∧
      r.grantName request = (.ok (candidate request.1 i),
        { r with names := noted r.names request.2 (candidate request.1 i) })) ∨
    r.rename = false ∧ ∃ owner, r.nameOwner? request.1 = some owner ∧ owner ≠ request.2 ∧
      r.grantName request = (.error (.duplicateName request.1 owner request.2), r) := by
  obtain ⟨i, hi, hrename, hok⟩ | ⟨hrename, owner, howner, hne, herror⟩ :=
    r.reserveName_spec request.1 request.2
  · exact .inl ⟨i, hi, hrename, by rw [grantName, hok]⟩
  · exact .inr ⟨hrename, owner, howner, hne, by rw [grantName, herror]⟩

theorem grantName_of_isFirst (h : IsFirst r.names request.2 (candidate request.1) i)
    (hrename : i = 0 ∨ r.rename = true) : r.grantName request = (.ok (candidate request.1 i),
      { r with names := noted r.names request.2 (candidate request.1 i) }) := by
  obtain ⟨j, hj, -, hok⟩ | ⟨hfalse, owner, howner, hne, -⟩ := r.grantName_spec request
  · rw [hok, h.unique hj]
  obtain rfl | htrue := hrename
  · exact absurd ⟨owner, howner, hne⟩ h.free
  · rw [htrue] at hfalse
    cases hfalse

theorem forall₂_reserveNames (r : Reservations) (requests : List (String × String)) :
    (r.reserveNames requests).2.rename = r.rename ∧
      StaysIn r.names (r.reserveNames requests).2.names ∧
      List.Forall₂ (fun request answer => ∀ unique, answer = .ok unique →
        ∃ (before : Reservations) (i : Nat), IsFirst before.names request.2 (candidate request.1) i ∧
          (i = 0 ∨ r.rename = true) ∧ unique = candidate request.1 i ∧
          StaysIn (noted before.names request.2 unique) (r.reserveNames requests).2.names)
        requests (r.reserveNames requests).1 := by
  induction requests generalizing r with
  | nil => exact ⟨rfl, fun _ _ h => h, .nil⟩
  | cons request requests ih =>
    obtain ⟨hrename, hkeeps, hall⟩ := ih (r.grantName request).2
    obtain ⟨i, hi, hi', hok⟩ | ⟨-, owner, -, -, herror⟩ := r.grantName_spec request
    · rw [hok] at hrename hkeeps hall
      rw [reserveNames, hok]
      refine ⟨hrename, staysIn_noted.trans hkeeps, .cons ?_ hall⟩
      rintro _ ⟨⟩
      exact ⟨r, i, hi, hi', rfl, hkeeps⟩
    · rw [herror] at hrename hkeeps hall
      rw [reserveNames, herror]
      exact ⟨hrename, hkeeps, .cons (by simp) hall⟩

/-- **Every name belongs to one block, and every block keeps its names.**  After any requests, the
next one is given the first of `name`, `name-2`, `name-3`, ... that no other block has; without
renaming this is the name itself, or the request fails and changes nothing.  No name changes its
owner.  A request that was met is met again in the same way and changes nothing, and no name was
given to two identifiers. -/
theorem reserveNames_stable (rename : Bool) (requests : List (String × String)) :
    let answers := ((new rename).reserveNames requests).1
    let r := ((new rename).reserveNames requests).2
    (∀ request,
      (∃ i, IsFirst r.names request.2 (candidate request.1) i ∧ (i = 0 ∨ rename = true) ∧
        (r.grantName request).1 = .ok (candidate request.1 i)) ∨
      rename = false ∧ ∃ owner, r.nameOwner? request.1 = some owner ∧ owner ≠ request.2 ∧
        r.grantName request = (.error (.duplicateName request.1 owner request.2), r)) ∧
    (∀ name owner, r.nameOwner? name = some owner → ∀ later,
      (r.reserveNames later).2.nameOwner? name = some owner) ∧
    answers.length = requests.length ∧
    (∀ p ∈ requests.zip answers, ∀ unique, p.2 = .ok unique → r.grantName p.1 = (.ok unique, r)) ∧
    ∀ p ∈ requests.zip answers, ∀ q ∈ requests.zip answers, ∀ unique,
      p.2 = .ok unique → q.2 = .ok unique → p.1.2 = q.1.2 := by
  intro answers r
  obtain ⟨hrename, -, hall⟩ := (new rename).forall₂_reserveNames requests
  obtain ⟨hlength, hzip⟩ := List.forall₂_iff_zip.1 hall
  refine ⟨fun request => ?_, fun name owner h later => (r.forall₂_reserveNames later).2.1 name owner h,
    hlength.symm, ?_, ?_⟩
  · rw [show rename = r.rename from hrename.symm]
    refine (r.grantName_spec request).imp_left ?_
    rintro ⟨i, hi, hi', hok⟩
    exact ⟨i, hi, hi', by rw [hok]⟩
  · rintro ⟨request, answer⟩ hp unique hanswer
    obtain ⟨before, i, hi, hi', rfl, hkeeps⟩ := hzip hp unique hanswer
    obtain ⟨-, hfirst, hnoted⟩ := hi.again hkeeps
    have hagain := grantName_of_isFirst hfirst (hrename ▸ hi')
    rwa [hnoted] at hagain
  · rintro ⟨a, _⟩ hp ⟨b, _⟩ hq unique ha hb
    obtain ⟨before, i, hi, -, rfl, hkeeps⟩ := hzip hp unique ha
    obtain ⟨before', j, hj, -, heq, hkeeps'⟩ := hzip hq _ hb
    have hb := (hj.again (heq ▸ hkeeps')).1
    rw [← heq] at hb
    exact Option.some.inj ((hi.again hkeeps).1.symm.trans hb)

end Reservations

end StyleBlocks
