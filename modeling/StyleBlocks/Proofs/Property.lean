import StyleBlocks.Property
import StyleBlocks.Statement

/-!
# Which properties overlap

A shorthand covers its longhands, and a longhand covers itself alone.  So covering is transitive, and
two properties overlap if and only if something that one of them covers overlaps the other.
-/

namespace StyleBlocks

open List

variable {p q x y : String}

theorem sameIgnoringCase_iff : sameIgnoringCase p q = true ↔ lowercase p = lowercase q :=
  beq_iff_eq

theorem lowercase_lowercase (p : String) : lowercase (lowercase p) = lowercase p := by
  have hlower : ∀ c : Char, c.toLower.toLower = c.toLower := by
    intro c
    unfold Char.toLower
    split
    · rename_i h
      simp [UInt32.le_iff_toNat_le] at h ⊢
      omega
    · rfl
  rw [← String.toList_inj]
  simp [lowercase, hlower]

/-! ## Covering -/

theorem covered_congr (h : lowercase p = lowercase q) : covered p = covered q := by
  rw [covered, covered, h]

theorem lowercase_mem_covered (p : String) : lowercase p ∈ covered p :=
  mem_cons_self

theorem mem_longhands_iff : q ∈ longhands p ↔ ∃ qs, shorthands.lookup p = some qs ∧ q ∈ qs := by
  unfold longhands
  cases shorthands.lookup p <;> simp

theorem of_mem_longhands {P : String → Bool}
    (hall : (shorthands.all fun entry => entry.2.all P) = true) (h : q ∈ longhands p) :
    P q = true := by
  obtain ⟨qs, hlookup, hq⟩ := mem_longhands_iff.1 h
  obtain ⟨l₁, l₂, hs, -⟩ := lookup_eq_some_iff.1 hlookup
  have hmem : (p, qs) ∈ shorthands := by
    rw [hs]
    simp
  exact all_eq_true.1 (all_eq_true.1 hall _ hmem) q hq

theorem lowercase_of_not_isUpper (h : ∀ c ∈ q.toList, c.isUpper = false) : lowercase q = q := by
  rw [← String.toList_inj, lowercase, String.toList_map]
  refine (map_congr_left fun c hc => ?_).trans (map_id _)
  have hupper := h c hc
  unfold Char.isUpper at hupper
  unfold Char.toLower
  rw [dif_neg (by simpa using hupper)]
  rfl

theorem lowercase_of_mem_longhands (h : q ∈ longhands p) : lowercase q = q := by
  have hall : (shorthands.all fun entry => entry.2.all fun q =>
      q.toList.all fun c => !c.isUpper) = true := by
    decide +kernel
  have hlower := of_mem_longhands (P := fun q => q.toList.all fun c => !c.isUpper) hall h
  refine lowercase_of_not_isUpper fun c hc => ?_
  simpa using all_eq_true.1 hlower c hc

/-- **Covering is transitive.**  Either the same property is written in another case, or a longhand
covers itself. -/
theorem mem_covered_trans (hx : x ∈ covered p) (hy : y ∈ covered x) : y ∈ covered p := by
  rcases mem_cons.1 hx with rfl | hx
  · rwa [covered_congr (lowercase_lowercase p)] at hy
  · rw [covered, lowercase_of_mem_longhands hx, longhands_of_mem hx, mem_singleton] at hy
    rw [hy]
    exact mem_cons_of_mem _ hx

/-! ## Overlapping -/

theorem overlaps_iff : overlaps p q = true ↔ ∃ x, x ∈ covered p ∧ x ∈ covered q := by
  unfold overlaps
  simp only [any_eq_true, contains_iff_mem]
  exact exists_congr fun x => and_comm

theorem exists_covered_overlaps_iff :
    (∃ x ∈ covered p, overlaps x q = true) ↔ overlaps p q = true := by
  simp only [overlaps_iff]
  constructor
  · rintro ⟨x, hx, y, hyx, hyq⟩
    exact ⟨y, mem_covered_trans hx hyx, hyq⟩
  · rintro ⟨y, hyp, hyq⟩
    refine ⟨lowercase p, lowercase_mem_covered p, y, ?_, hyq⟩
    rwa [covered_congr (lowercase_lowercase p)]

theorem language_of_overlaps (h : overlaps p q = true) (hp : p ∈ languageProperties) :
    ∃ r ∈ languageProperties, sameIgnoringCase q r = true := by
  have hself : ∀ r ∈ languageProperties, covered r = [r] := by decide +kernel
  have hnone : (shorthands.all fun entry => entry.2.all fun q => !languageProperties.contains q)
      = true := by
    decide +kernel
  obtain ⟨x, hxp, hxq⟩ := overlaps_iff.1 h
  rw [hself p hp, mem_singleton] at hxp
  subst hxp
  refine ⟨x, hp, ?_⟩
  rcases mem_cons.1 hxq with hxq | hxq
  · rw [sameIgnoringCase_iff, hxq, lowercase_lowercase]
  · have := of_mem_longhands (P := fun q => !languageProperties.contains q) hnone hxq
    simp [hp] at this

end StyleBlocks
