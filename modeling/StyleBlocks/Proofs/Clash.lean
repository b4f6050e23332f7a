import StyleBlocks.Clash
import StyleBlocks.Proofs.Property
import StyleBlocks.Proofs.SortedMap

/-!
# Conflicts between two objects

The properties that two objects both touch are found in sets that were built up while the rules were
read.  They tell what the declarations themselves tell, and the two objects may be exchanged.

* `Contributions.Ascends`, `sharedProperties_comm`: **the order of the objects does not matter**, if
  the pseudo-elements of each are kept in order.
-/

namespace StyleBlocks

open List Contributions

namespace Contributions

variable {r : Contributions} {pseudo : Option String} {x : String}

def declarationsFor (r : Contributions) (pseudo : Option String) : List Declaration :=
  (r.forPseudo pseudo).flatMap Contribution.declarations

theorem mem_touched :
    x ∈ r.touched pseudo ↔ ∃ d ∈ r.declarationsFor pseudo, x ∈ covered d.property := by
  rw [touched, mem_sortedSet, declarationsFor]
  simp only [mem_flatMap, Contribution.touched, mem_sortedSet]
  constructor
  · rintro ⟨c, hc, d, hd, hx⟩
    exact ⟨d, ⟨c, hc, hd⟩, hx⟩
  · rintro ⟨d, ⟨c, hc, hd⟩, hx⟩
    exact ⟨c, hc, d, hd, hx⟩

theorem mem_pseudoKeys_of_mem_touched (h : x ∈ r.touched pseudo) : pseudo ∈ r.pseudoKeys := by
  cases hfind : r.buckets.find? pseudo with
  | none =>
    rw [touched, forPseudo, hfind] at h
    cases h
  | some l => exact mem_map.2 ⟨_, SortedMap.mem_of_find? hfind, rfl⟩

/-- The pseudo-elements are kept in order. -/
protected def Ascends (r : Contributions) : Prop :=
  StyleBlocks.Ascends r.pseudoKeys

theorem ascends_empty : empty.Ascends :=
  List.Pairwise.nil

theorem Ascends.add (h : r.Ascends) (pseudo : Option String) (c : Contribution) :
    (r.add pseudo c).Ascends :=
  SortedMap.ascends_keys_insert h pseudo _

end Contributions

section

variable {g : Catalog} {a b : ObjectId} {s t : StyleObject} {pseudo : Option String}

/-- The properties that two objects both touch for a pseudo-element. -/
def sharedFor (s t : StyleObject) (pseudo : Option String) : List String :=
  (s.contributions.touched pseudo).filter (t.contributions.touched pseudo).contains

theorem mem_sharedFor {x : String} : x ∈ sharedFor s t pseudo ↔
    x ∈ s.contributions.touched pseudo ∧ x ∈ t.contributions.touched pseudo := by
  simp [sharedFor]

/-- The properties are in order, so they do not depend on which object is asked first. -/
theorem sharedFor_comm (s t : StyleObject) (pseudo : Option String) :
    sharedFor s t pseudo = sharedFor t s pseudo := by
  have hascends : ∀ s t : StyleObject, Ascends (sharedFor s t pseudo) := fun s t =>
    (ascends_sortedSet _).sublist filter_sublist
  refine (hascends s t).eq_of_mem_iff (hascends t s) fun x => ?_
  rw [mem_sharedFor, mem_sharedFor, and_comm]

theorem sharedFor_ne_nil_iff : sharedFor s t pseudo ≠ [] ↔
    ∃ d ∈ s.contributions.declarationsFor pseudo, ∃ e ∈ t.contributions.declarationsFor pseudo,
      overlaps d.property e.property = true := by
  constructor
  · intro hne
    obtain ⟨x, hx⟩ := exists_mem_of_ne_nil _ hne
    obtain ⟨hs, ht⟩ := mem_sharedFor.1 hx
    obtain ⟨d, hd, hxd⟩ := mem_touched.1 hs
    obtain ⟨e, he, hxe⟩ := mem_touched.1 ht
    exact ⟨d, hd, e, he, overlaps_iff.2 ⟨x, hxd, hxe⟩⟩
  · rintro ⟨d, hd, e, he, hoverlaps⟩
    obtain ⟨x, hxd, hxe⟩ := overlaps_iff.1 hoverlaps
    exact ne_nil_of_mem (mem_sharedFor.2 ⟨mem_touched.2 ⟨d, hd, hxd⟩, mem_touched.2 ⟨e, he, hxe⟩⟩)

theorem sharedProperties_eq (ha : g.object? a = some s) (hb : g.object? b = some t) :
    sharedProperties g a b = (s.contributions.pseudoKeys.filter fun pseudo =>
      !(sharedFor s t pseudo).isEmpty).map fun pseudo => (pseudo, sharedFor s t pseudo) := by
  rw [sharedProperties, ha, hb]
  rw [← filterMap_eq_map, filterMap_filter]
  refine filterMap_congr fun pseudo _ => ?_
  change (if (sharedFor s t pseudo).isEmpty = true then none
    else some (pseudo, sharedFor s t pseudo)) = _
  cases (sharedFor s t pseudo).isEmpty <;> rfl

theorem mem_pseudoKeys_of_sharedFor (h : sharedFor s t pseudo ≠ []) :
    pseudo ∈ s.contributions.pseudoKeys := by
  obtain ⟨x, hx⟩ := exists_mem_of_ne_nil _ h
  exact mem_pseudoKeys_of_mem_touched (mem_sharedFor.1 hx).1

def Catalog.declarationsFor (g : Catalog) (a : ObjectId) (pseudo : Option String) :
    List Declaration :=
  ((g.object? a).map fun s => s.contributions.declarationsFor pseudo).getD []

/-- **Two objects conflict for a pseudo-element exactly if a declaration of the one and a declaration
of the other overlap there.** -/
theorem mem_sharedProperties_iff :
    (∃ shared, (pseudo, shared) ∈ sharedProperties g a b ∧ shared ≠ []) ↔
      ∃ d ∈ g.declarationsFor a pseudo, ∃ e ∈ g.declarationsFor b pseudo,
        overlaps d.property e.property = true := by
  unfold Catalog.declarationsFor
  cases ha : g.object? a with
  | none => simp [sharedProperties, ha]
  | some s =>
    cases hb : g.object? b with
    | none => simp [sharedProperties, ha, hb]
    | some t =>
      rw [sharedProperties_eq ha hb]
      simp only [Option.map_some, Option.getD_some, ← sharedFor_ne_nil_iff]
      constructor
      · rintro ⟨shared, hmem, hne⟩
        obtain ⟨q, -, hq⟩ := mem_map.1 hmem
        cases hq
        exact hne
      · intro hne
        refine ⟨_, mem_map.2 ⟨pseudo, mem_filter.2 ⟨mem_pseudoKeys_of_sharedFor hne, ?_⟩, rfl⟩, hne⟩
        simpa using hne

/-- **Which of two objects is asked first does not matter**, if the pseudo-elements of each are kept
in order. -/
theorem sharedProperties_comm (ha : ∀ s, g.object? a = some s → s.contributions.Ascends)
    (hb : ∀ t, g.object? b = some t → t.contributions.Ascends) :
    sharedProperties g a b = sharedProperties g b a := by
  cases hs : g.object? a with
  | none => cases ht : g.object? b <;> simp [sharedProperties, hs, ht]
  | some s =>
    cases ht : g.object? b with
    | none => simp [sharedProperties, hs, ht]
    | some t =>
      rw [sharedProperties_eq hs ht, sharedProperties_eq ht hs]
      simp only [sharedFor_comm t s]
      congr 1
      refine ((ha s hs).sublist filter_sublist).eq_of_mem_iff
        ((hb t ht).sublist filter_sublist) fun pseudo => ?_
      rw [mem_filter, mem_filter]
      refine and_congr_left fun hne => ?_
      have hne : sharedFor s t pseudo ≠ [] := by simpa using hne
      exact iff_of_true (mem_pseudoKeys_of_sharedFor hne)
        (mem_pseudoKeys_of_sharedFor (sharedFor_comm s t pseudo ▸ hne))

end

end StyleBlocks
