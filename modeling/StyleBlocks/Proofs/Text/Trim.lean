import StyleBlocks.Text.Blank
import Mathlib.Data.List.TakeWhile

/-!
# Texts without outer blanks
-/

namespace StyleBlocks

open List

variable {c : Char} {s : List Char}

/-- The text neither begins nor ends with a blank. -/
structure IsTrimmed (s : List Char) : Prop where
  head : ∀ c, s.head? = some c → isBlank c = false
  last : ∀ c, s.getLast? = some c → isBlank c = false

theorem isTrimmed_nil : IsTrimmed [] :=
  ⟨nofun, nofun⟩

theorem dropWhile_of_head? {p : Char → Bool} (h : ∀ c, s.head? = some c → p c = false) :
    s.dropWhile p = s := by
  cases s with
  | nil => rfl
  | cons c s => rw [dropWhile_cons, h c rfl, if_neg Bool.false_ne_true]

theorem trimEnd_append {blanks : List Char} (hs : ∀ c, s.getLast? = some c → isBlank c = false)
    (hblanks : ∀ c ∈ blanks, isBlank c = true) : trimEnd (s ++ blanks) = s := by
  have hnil : blanks.reverse.dropWhile isBlank = [] := by
    rw [dropWhile_eq_nil_iff]
    exact fun c hc => hblanks c (mem_reverse.1 hc)
  rw [trimEnd, reverse_append, dropWhile_append, hnil, isEmpty_nil, if_pos rfl,
    dropWhile_of_head? (by rwa [head?_reverse]), reverse_reverse]

/-- **Trimming takes away what is blank at both ends, and no more.** -/
theorem trim_append {before behind : List Char} (hs : IsTrimmed s)
    (hbefore : ∀ c ∈ before, isBlank c = true) (hbehind : ∀ c ∈ behind, isBlank c = true) :
    trim (before ++ s ++ behind) = s := by
  have hnil : before.dropWhile isBlank = [] := by
    rw [dropWhile_eq_nil_iff]
    exact hbefore
  rw [trim, append_assoc, dropWhile_append, hnil, isEmpty_nil, if_pos rfl]
  cases s with
  | nil =>
    have hnil : behind.dropWhile isBlank = [] := by
      rw [dropWhile_eq_nil_iff]
      exact hbehind
    rw [nil_append, hnil]
    rfl
  | cons c s =>
    rw [dropWhile_of_head? (s := c :: s ++ behind) hs.head]
    exact trimEnd_append hs.last hbehind

theorem trim_of_isTrimmed (h : IsTrimmed s) : trim s = s := by
  have htrim : trim ([] ++ s ++ []) = s := trim_append h (by simp) (by simp)
  rwa [nil_append, append_nil] at htrim

theorem isBlank_of_head?_dropWhile (h : (s.dropWhile isBlank).head? = some c) :
    isBlank c = false := by
  have hnot := head?_dropWhile_not isBlank s
  rw [h] at hnot
  exact hnot

theorem trim_isPrefix_dropWhile (s : List Char) : trim s <+: s.dropWhile isBlank := by
  rw [trim, trimEnd, ← reverse_suffix, reverse_reverse]
  exact dropWhile_suffix _

theorem trim_subset (s : List Char) : trim s ⊆ s := fun _ hc =>
  (dropWhile_suffix _).subset ((trim_isPrefix_dropWhile s).subset hc)

theorem isTrimmed_trim (s : List Char) : IsTrimmed (trim s) := by
  refine ⟨fun c hc => ?_, fun c hc => ?_⟩
  · obtain ⟨w, hw⟩ := head?_eq_some_iff.1 hc
    obtain ⟨v, hv⟩ := trim_isPrefix_dropWhile s
    rw [hw, cons_append] at hv
    exact isBlank_of_head?_dropWhile (s := s) (by rw [← hv]; rfl)
  · rw [trim, trimEnd, getLast?_reverse] at hc
    exact isBlank_of_head?_dropWhile hc

theorem mem_trim_of_mem (hc : c ∈ s) (hblank : isBlank c = false) : c ∈ trim s := by
  have hdrop : ∀ s : List Char, c ∈ s → c ∈ s.dropWhile isBlank := by
    intro s hc
    rw [← takeWhile_append_dropWhile (p := isBlank) (l := s), mem_append] at hc
    rcases hc with hc | hc
    · have htake := all_eq_true.1 all_takeWhile c hc
      rw [hblank] at htake
      cases htake
    · exact hc
  rw [trim, trimEnd, mem_reverse]
  exact hdrop _ (mem_reverse.2 (hdrop s hc))

theorem head?_trim (h : (s.dropWhile isBlank).head? = some c) : (trim s).head? = some c := by
  have hmem : c ∈ trim s := mem_trim_of_mem
    ((dropWhile_suffix _).subset (mem_of_head? h)) (isBlank_of_head?_dropWhile h)
  cases htrim : trim s with
  | nil =>
    rw [htrim] at hmem
    cases hmem
  | cons d u =>
    obtain ⟨v, hv⟩ := htrim ▸ trim_isPrefix_dropWhile s
    rw [← hv] at h
    exact h

theorem trimEnd_append_blanks (s : List Char) :
    ∃ blanks, s = trimEnd s ++ blanks ∧ ∀ c ∈ blanks, isBlank c = true := by
  refine ⟨(s.reverse.takeWhile isBlank).reverse, ?_, ?_⟩
  · unfold trimEnd
    rw [← reverse_append, takeWhile_append_dropWhile, reverse_reverse]
  · intro c hc
    exact (mem_takeWhile_imp (mem_reverse.1 hc))

theorem trimEnd_eq_trim (h : ∀ c, s.head? = some c → isBlank c = false) : trimEnd s = trim s := by
  rw [trim, dropWhile_of_head? h]

theorem trim_eq_self_iff : trim s = s ↔ IsTrimmed s :=
  ⟨fun h => h ▸ isTrimmed_trim s, trim_of_isTrimmed⟩

end StyleBlocks
