import Mathlib.Data.String.Basic
import StyleBlocks.SortedMap

/-!
# Sorted lists and entries of sorted maps

* `Ascends`: a list in increasing order; `Ascends.eq_of_mem_iff`: **it is known by its elements.**
-/

namespace StyleBlocks

open List

/-! ## Increasing lists -/

def Ascends {κ : Type} [LT κ] (l : List κ) : Prop :=
  l.Pairwise (· < ·)

theorem Ascends.sublist {κ : Type} [LT κ] {l l' : List κ} (h : Ascends l) (hl : l'.Sublist l) :
    Ascends l' :=
  List.Pairwise.sublist hl h

/-- Optional keys are in order if the keys are: `none` stands before them. -/
instance isTransLTOption {κ : Type} [LT κ] [IsTrans κ (· < ·)] :
    IsTrans (Option κ) (· < ·) := by
  refine ⟨fun a b c hab hbc => ?_⟩
  rcases a with _ | a <;> rcases b with _ | b <;> rcases c with _ | c
  · exact hab.elim
  · trivial
  · exact hbc.elim
  · trivial
  · exact hab.elim
  · exact hab.elim
  · exact hbc.elim
  · exact IsTrans.trans (r := (· < ·)) a b c hab hbc

instance trichotomousLTOption {κ : Type} [LT κ] [Std.Trichotomous (fun a b : κ => a < b)] :
    Std.Trichotomous (fun a b : Option κ => a < b) := by
  refine ⟨fun a b hab hba => ?_⟩
  rcases a with _ | a <;> rcases b with _ | b
  · rfl
  · exact absurd trivial hab
  · exact absurd trivial hba
  · exact congrArg some (Std.Trichotomous.trichotomous (r := fun a b : κ => a < b) a b hab hba)

instance irreflLTOption {κ : Type} [LT κ] [Std.Irrefl (fun a b : κ => a < b)] :
    Std.Irrefl (fun a b : Option κ => a < b) := by
  refine ⟨fun a ha => ?_⟩
  rcases a with _ | a
  · exact ha
  · exact Std.Irrefl.irrefl (r := fun a b : κ => a < b) a ha

section

variable {κ : Type} [LT κ] [IsTrans κ (· < ·)] [Std.Irrefl (fun a b : κ => a < b)] {l l' : List κ}

omit [IsTrans κ (· < ·)] in
theorem Ascends.nodup (h : Ascends l) : l.Nodup := by
  refine List.Pairwise.imp (fun {a b} hab => ?_) h
  rintro rfl
  exact Std.Irrefl.irrefl (r := fun a b : κ => a < b) a hab

/-- **An increasing list is known by its elements.** -/
theorem Ascends.eq_of_mem_iff (h : Ascends l) (h' : Ascends l') (hmem : ∀ a, a ∈ l ↔ a ∈ l') :
    l = l' := by
  refine Perm.eq_of_pairwise (fun a b _ _ hab hba => ?_) h h'
    ((perm_ext_iff_of_nodup h.nodup h'.nodup).2 hmem)
  exact absurd (IsTrans.trans (r := (· < ·)) a b a hab hba)
    (Std.Irrefl.irrefl (r := fun a b : κ => a < b) a)

variable [Std.Trichotomous (fun a b : κ => a < b)] [DecidableLT κ] [DecidableEq κ]

omit [Std.Irrefl (fun a b : κ => a < b)] in
theorem ascends_insertSorted (h : Ascends l) (a : κ) : Ascends (insertSorted a l) := by
  induction l with
  | nil => exact pairwise_singleton _ a
  | cons b l ih =>
    obtain ⟨hb, hl⟩ := pairwise_cons.1 h
    unfold insertSorted
    split
    · exact h
    rename_i hne
    split
    · rename_i hlt
      refine pairwise_cons.2 ⟨fun c hc => ?_, h⟩
      rcases mem_cons.1 hc with rfl | hc
      · exact hlt
      · exact IsTrans.trans (r := (· < ·)) a b c hlt (hb c hc)
    rename_i hnlt
    refine pairwise_cons.2 ⟨fun c hc => ?_, ih hl⟩
    rcases mem_insertSorted.1 hc with rfl | hc
    · by_contra hcb
      exact hne (Std.Trichotomous.trichotomous (r := fun a b : κ => a < b) c b hnlt hcb)
    · exact hb c hc

omit [Std.Irrefl (fun a b : κ => a < b)] in
theorem ascends_sortedSet (l : List κ) : Ascends (sortedSet l) :=
  foldlRecOn l _ Pairwise.nil fun _ h a _ => ascends_insertSorted h a

end

namespace SortedMap

section

variable {κ α : Type} [LT κ] [IsTrans κ (· < ·)] [Std.Trichotomous (fun a b : κ => a < b)]
  [DecidableLT κ] [DecidableEq κ]

theorem ascends_keys_insert {m : SortedMap κ α} (h : Ascends m.keys) (k : κ) (a : α) :
    Ascends (m.insert k a).keys := by
  have hreplace : ∀ l : List (κ × α), (replaceEntry k a l).map Prod.fst = l.map Prod.fst := by
    intro l
    induction l with
    | nil => rfl
    | cons e l ih =>
      unfold replaceEntry
      split <;> simp_all
  -- a key that is not among the entries goes where it belongs
  have hinsert : ∀ l : List (κ × α), lookup k l = none →
      (insertEntry k a l).map Prod.fst = insertSorted k (l.map Prod.fst) := by
    intro l
    induction l with
    | nil => exact fun _ => rfl
    | cons e l ih =>
      intro hl
      rw [lookup] at hl
      split at hl
      · cases hl
      rename_i hne
      rw [insertEntry, map_cons, insertSorted, if_neg hne]
      split
      · rfl
      · rw [map_cons, ih hl]
  unfold insert
  split
  · unfold keys
    rw [hreplace]
    exact h
  rename_i hnone
  unfold keys
  rw [hinsert _ (by simpa [find?] using hnone)]
  exact ascends_insertSorted h k

end

variable {κ α : Type} [DecidableEq κ] {m : SortedMap κ α} {k : κ} {a : α}

theorem mem_of_find? (h : m.find? k = some a) : (k, a) ∈ m.entries := by
  obtain ⟨entries⟩ := m
  change lookup k entries = some a at h
  induction entries with
  | nil => cases h
  | cons e l ih =>
    rw [lookup] at h
    split at h
    · rename_i hk
      cases h
      simp [hk]
    · exact mem_cons_of_mem _ (ih h)

theorem exists_find?_of_mem (h : (k, a) ∈ m.entries) : ∃ b, m.find? k = some b := by
  obtain ⟨entries⟩ := m
  change ∃ b, lookup k entries = some b
  induction entries with
  | nil => cases h
  | cons e l ih =>
    obtain ⟨j, b⟩ := e
    rw [lookup]
    split
    · exact ⟨b, rfl⟩
    rename_i hk
    rcases mem_cons.1 h with h | h
    · exact absurd (congrArg Prod.fst h) hk
    · exact ih h

theorem mem_of_mem_insert [LT κ] [DecidableLT κ] {e : κ × α} (h : e ∈ (m.insert k a).entries) :
    e = (k, a) ∨ e ∈ m.entries := by
  have hreplace : ∀ l : List (κ × α), e ∈ replaceEntry k a l → e = (k, a) ∨ e ∈ l := by
    intro l
    induction l with
    | nil => simp [replaceEntry]
    | cons c l ih =>
      rw [replaceEntry]
      split
      · rename_i hk
        rw [mem_cons, ← hk]
        exact Or.imp_right (mem_cons_of_mem _)
      rw [mem_cons, mem_cons]
      rintro (h | h)
      · exact .inr (.inl h)
      · exact (ih h).imp_right .inr
  have hinsert : ∀ l : List (κ × α), e ∈ insertEntry k a l → e = (k, a) ∨ e ∈ l := by
    intro l
    induction l with
    | nil => simp [insertEntry]
    | cons c l ih =>
      rw [insertEntry]
      split
      · exact mem_cons.1
      rw [mem_cons, mem_cons]
      rintro (h | h)
      · exact .inr (.inl h)
      · exact (ih h).imp_right .inr
  unfold insert at h
  split at h
  · exact hreplace _ h
  · exact hinsert _ h

/-! ## Other values for the same keys -/

section

variable {β : Type} (f : α → β)

def mapValues (f : α → β) (m : SortedMap κ α) : SortedMap κ β :=
  ⟨m.entries.map fun e => (e.1, f e.2)⟩

theorem find?_mapValues (m : SortedMap κ α) (k : κ) :
    (m.mapValues f).find? k = (m.find? k).map f := by
  obtain ⟨entries⟩ := m
  change lookup k (entries.map fun e => (e.1, f e.2)) = (lookup k entries).map f
  induction entries with
  | nil => rfl
  | cons e l ih =>
    rw [map_cons, lookup, lookup, ih]
    split <;> rfl

theorem mapValues_insert [LT κ] [DecidableLT κ] (m : SortedMap κ α) (k : κ) (a : α) :
    (m.insert k a).mapValues f = (m.mapValues f).insert k (f a) := by
  have hreplace : ∀ l : List (κ × α), (replaceEntry k a l).map (fun e => (e.1, f e.2))
      = replaceEntry k (f a) (l.map fun e => (e.1, f e.2)) := by
    intro l
    induction l with
    | nil => rfl
    | cons c l ih =>
      simp only [map_cons, replaceEntry, ← ih]
      split <;> rfl
  have hinsert : ∀ l : List (κ × α), (insertEntry k a l).map (fun e => (e.1, f e.2))
      = insertEntry k (f a) (l.map fun e => (e.1, f e.2)) := by
    intro l
    induction l with
    | nil => rfl
    | cons c l ih =>
      simp only [map_cons, insertEntry, ← ih]
      split <;> rfl
  unfold insert
  rw [find?_mapValues, Option.isSome_map]
  split
  · exact congrArg SortedMap.mk (hreplace m.entries)
  · exact congrArg SortedMap.mk (hinsert m.entries)

omit [DecidableEq κ] in
theorem mapValues_mapValues {γ : Type} (g : β → γ) (m : SortedMap κ α) :
    (m.mapValues f).mapValues g = m.mapValues (g ∘ f) :=
  congrArg SortedMap.mk map_map

omit [DecidableEq κ] in
theorem mapValues_id (m : SortedMap κ α) : m.mapValues id = m :=
  congrArg SortedMap.mk (map_id m.entries)

omit [DecidableEq κ] in
theorem mapValues_congr {g : α → β} {m : SortedMap κ α} (h : ∀ e ∈ m.entries, f e.2 = g e.2) :
    m.mapValues f = m.mapValues g :=
  congrArg SortedMap.mk (map_congr_left fun e he => by rw [h e he])

end

end SortedMap

end StyleBlocks
