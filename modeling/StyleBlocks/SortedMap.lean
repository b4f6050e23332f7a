/-!
# Sorted lists and maps

Lists in increasing order without repetition, and finite maps kept as lists of entries with their
keys in increasing order.  They are small, and their order is shown, so lists serve them.
-/

namespace StyleBlocks

section

variable {κ : Type} [LT κ] [DecidableLT κ] [DecidableEq κ]

def insertSorted (a : κ) : List κ → List κ
  | [] => [a]
  | b :: l => if a = b then b :: l else if a < b then a :: b :: l else b :: insertSorted a l

def sortedSet (l : List κ) : List κ :=
  l.foldl (fun set a => insertSorted a set) []

theorem mem_insertSorted {a b : κ} {l : List κ} : b ∈ insertSorted a l ↔ b = a ∨ b ∈ l := by
  induction l with
  | nil => simp [insertSorted]
  | cons c l ih =>
    unfold insertSorted
    split
    · rename_i h
      subst h
      simp
    · split
      · simp
      · simp only [List.mem_cons, ih]
        constructor
        · rintro (h | h | h)
          · exact .inr (.inl h)
          · exact .inl h
          · exact .inr (.inr h)
        · rintro (h | h | h)
          · exact .inr (.inl h)
          · exact .inl h
          · exact .inr (.inr h)

theorem mem_foldl_insertSorted {b : κ} {l set : List κ} :
    b ∈ l.foldl (fun set a => insertSorted a set) set ↔ b ∈ l ∨ b ∈ set := by
  induction l generalizing set with
  | nil => simp
  | cons a l ih =>
    rw [List.foldl_cons, ih, mem_insertSorted, List.mem_cons]
    constructor
    · rintro (h | h | h)
      · exact .inl (.inr h)
      · exact .inl (.inl h)
      · exact .inr h
    · rintro ((h | h) | h)
      · exact .inr (.inl h)
      · exact .inl h
      · exact .inr (.inr h)

theorem mem_sortedSet {b : κ} {l : List κ} : b ∈ sortedSet l ↔ b ∈ l := by
  simp [sortedSet, mem_foldl_insertSorted]

end

/-- Optional keys are compared with `none` first. -/
instance decidableLTOption {κ : Type} [LT κ] [DecidableLT κ] : DecidableLT (Option κ) :=
  inferInstanceAs (DecidableRel (Option.lt fun a b : κ => a < b))

/-- A finite map with its keys in increasing order. -/
structure SortedMap (κ α : Type) where
  entries : List (κ × α)
deriving Repr, DecidableEq

namespace SortedMap

variable {κ α : Type} [DecidableEq κ]

def empty : SortedMap κ α := ⟨[]⟩

instance : Inhabited (SortedMap κ α) := ⟨empty⟩

def keys (m : SortedMap κ α) : List κ :=
  m.entries.map Prod.fst

def values (m : SortedMap κ α) : List α :=
  m.entries.map Prod.snd

def size (m : SortedMap κ α) : Nat :=
  m.entries.length

def lookup (k : κ) : List (κ × α) → Option α
  | [] => none
  | (j, a) :: l => if k = j then some a else lookup k l

def find? (m : SortedMap κ α) (k : κ) : Option α :=
  lookup k m.entries

def replaceEntry (k : κ) (a : α) : List (κ × α) → List (κ × α)
  | [] => []
  | (j, b) :: l => if k = j then (j, a) :: l else (j, b) :: replaceEntry k a l

theorem lookup_replaceEntry {k : κ} {l : List (κ × α)} (j : κ) (a : α)
    (h : (lookup k l).isSome) :
    lookup j (replaceEntry k a l) = if j = k then some a else lookup j l := by
  induction l with
  | nil => simp [lookup] at h
  | cons e l ih =>
    obtain ⟨i, b⟩ := e
    by_cases hk : k = i
    · subst hk
      by_cases hj : j = k <;> simp [replaceEntry, lookup, hj]
    · simp only [lookup, hk, if_false] at h
      simp only [replaceEntry, hk, if_false, lookup, ih h]
      by_cases hj : j = k
      · simp [hj, hk]
      · simp [hj]

/-! ## Insertion -/

variable [LT κ] [DecidableLT κ]

/-- Puts an entry before the first one with a greater key. -/
def insertEntry (k : κ) (a : α) : List (κ × α) → List (κ × α)
  | [] => [(k, a)]
  | (j, b) :: l => if k < j then (k, a) :: (j, b) :: l else (j, b) :: insertEntry k a l

def insert (m : SortedMap κ α) (k : κ) (a : α) : SortedMap κ α :=
  if (m.find? k).isSome then ⟨replaceEntry k a m.entries⟩ else ⟨insertEntry k a m.entries⟩

/-- Changes the value of a key; `f` is given the value there is. -/
def alter (m : SortedMap κ α) (k : κ) (f : Option α → α) : SortedMap κ α :=
  m.insert k (f (m.find? k))

theorem lookup_insertEntry {k : κ} {l : List (κ × α)} (j : κ) (a : α) (h : lookup k l = none) :
    lookup j (insertEntry k a l) = if j = k then some a else lookup j l := by
  induction l with
  | nil => rfl
  | cons e l ih =>
    obtain ⟨i, b⟩ := e
    by_cases hk : k = i
    · simp [lookup, hk] at h
    · simp only [lookup, hk, if_false] at h
      unfold insertEntry
      split
      · rfl
      · simp only [lookup, ih h]
        by_cases hj : j = k
        · simp [hj, hk]
        · simp [hj]

/-- A key that was given a value has that value, and no other key changes its own. -/
theorem find?_insert (m : SortedMap κ α) (k j : κ) (a : α) :
    (m.insert k a).find? j = if j = k then some a else m.find? j := by
  unfold insert
  split <;> rename_i h
  · exact lookup_replaceEntry j a h
  · exact lookup_insertEntry j a (by simpa [find?] using h)

end SortedMap

end StyleBlocks
