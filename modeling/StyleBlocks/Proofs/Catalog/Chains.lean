import Mathlib.Data.List.Nodup
import Mathlib.Data.List.Perm.Subperm
import Mathlib.Data.List.Range
import StyleBlocks.Proofs.Block.Objects
import StyleBlocks.Catalog.Classes

/-!
# Chains of blocks that extend each other

The blocks that a block extends are found by following the bases with a bound and a check for
circles.  Where the bases come to an end, neither matters.

Main result: `Catalog.Chain.lineage_eq`.
-/

namespace StyleBlocks

open List

namespace Catalog

variable {g : Catalog} {n : Nat} {l : List Nat} {x : ObjectId}

/-- The blocks that `n` extends, nearest first. -/
inductive Chain (g : Catalog) : Nat → List Nat → Prop
  | last {n : Nat} (h : (g.block n).base? = none) : Chain g n []
  | step {n m : Nat} {l : List Nat} (h : (g.block n).base? = some m) (hm : Chain g m l) :
      Chain g n (m :: l)

namespace Chain

theorem unique {l' : List Nat} (h : g.Chain n l) (h' : g.Chain n l') : l = l' := by
  induction h generalizing l' with
  | last hn =>
    cases h' with
    | last => rfl
    | step hn' => simp [hn] at hn'
  | step hn _ ih =>
    cases h' with
    | last hn' => simp [hn] at hn'
    | step hn' h' =>
      obtain rfl := Option.some.inj (hn.symm.trans hn')
      rw [ih h']

theorem suffix (h : g.Chain n l) {m : Nat} (hm : m ∈ l) :
    ∃ l₁ l₂, l = l₁ ++ m :: l₂ ∧ g.Chain m l₂ := by
  induction h with
  | last => simp at hm
  | @step n k l hn hk ih =>
    rcases mem_cons.1 hm with rfl | hm
    · exact ⟨[], l, rfl, hk⟩
    · obtain ⟨l₁, l₂, rfl, h₂⟩ := ih hm
      exact ⟨k :: l₁, l₂, rfl, h₂⟩

theorem of_append {l₁ l₂ : List Nat} {m : Nat} (h : g.Chain n (l₁ ++ m :: l₂)) : g.Chain m l₂ := by
  induction l₁ generalizing n with
  | nil =>
    cases h with
    | step _ hm => exact hm
  | cons k l₁ ih =>
    cases h with
    | step _ hk => exact ih hk

theorem notMem (h : g.Chain n l) : n ∉ l := by
  intro hmem
  obtain ⟨l₁, l₂, hl, h₂⟩ := h.suffix hmem
  have := congrArg List.length (hl.symm.trans (h.unique h₂))
  simp at this
  omega

theorem nodup (h : g.Chain n l) : (n :: l).Nodup := by
  induction h with
  | last => simp
  | step hn hm ih => exact nodup_cons.2 ⟨(Chain.step hn hm).notMem, ih⟩

theorem chainFrom_eq (h : g.Chain n l) (start fuel : Nat) (chain : List Nat)
    (hfuel : l.length < fuel) (hstart : start ∉ n :: l) (hchain : ∀ m ∈ n :: l, m ∉ chain) :
    g.chainFrom start fuel chain (some n) = chain ++ n :: l := by
  induction h generalizing fuel chain with
  | @last n hn =>
    obtain ⟨fuel, rfl⟩ : ∃ k, fuel = k + 1 := ⟨fuel - 1, by simp at hfuel; omega⟩
    have hne : ¬(decide (n = start) || decide (n ∈ chain)) = true := by
      simp only [mem_singleton] at hstart
      simp [Ne.symm hstart, hchain n (by simp)]
    rw [chainFrom, if_neg hne, hn]
    cases fuel <;> rfl
  | @step n m l hn hm ih =>
    obtain ⟨fuel, rfl⟩ : ∃ k, fuel = k + 1 := ⟨fuel - 1, by simp at hfuel; omega⟩
    have hne : ¬(decide (n = start) || decide (n ∈ chain)) = true := by
      have : n ≠ start := fun h => hstart (by simp [h])
      simp [this, hchain n (by simp)]
    rw [chainFrom, if_neg hne, hn, ih fuel (chain ++ [n]) (by simpa using hfuel)
      (fun h => hstart (mem_cons_of_mem n h))]
    · simp
    intro k hk
    have hkn : k ≠ n := by
      rintro rfl
      exact (Chain.step hn hm).notMem hk
    simp [hkn, hchain k (mem_cons_of_mem n hk)]

theorem length_le (h : g.Chain n l) (hl : ∀ m ∈ l, m < g.blocks.length) :
    l.length ≤ g.blocks.length := by
  have hsub : l ⊆ range g.blocks.length := fun m hm => mem_range.2 (hl m hm)
  have := (subperm_of_subset (nodup_cons.1 h.nodup).2 hsub).length_le
  rwa [length_range] at this

/-- **The ancestors are the chain.** -/
theorem ancestors_eq (h : g.Chain n l) (hl : ∀ m ∈ l, m < g.blocks.length) : g.ancestors n = l := by
  unfold ancestors
  have hlen := h.length_le hl
  cases h with
  | last hn =>
    rw [hn]
    rfl
  | @step _ m l hn hm =>
    rw [hn, hm.chainFrom_eq n _ [] (by simp at hlen; omega) (Chain.step hn hm).notMem (by simp)]
    rfl

end Chain

/-! ## Inherited objects -/

/-- The block has its own number and its objects in order. -/
structure Orderly (g : Catalog) (n : Nat) : Prop where
  lt : n < g.blocks.length
  number : (g.block n).number = n
  wellFormed : (g.block n).WellFormed

theorem Orderly.find? (h : g.Orderly n) {path : ObjectPath} (hx : (g.block n).find? path = some x)
    (hp : path.block = none) :
    x.block = n ∧ x.index < (g.block n).objects.length ∧ g.pathTo x = path := by
  obtain ⟨hbl, hi, hpath⟩ := Block.pathTo_of_find? h.wellFormed hx
  rw [h.number] at hbl
  refine ⟨hbl, hi, ?_⟩
  rw [pathTo, hbl, hpath, ObjectPath.toLocal, ← hp]

/-- The objects with a given path in some blocks. -/
def objectsWith (g : Catalog) (path : ObjectPath) (l : List Nat) : List ObjectId :=
  l.filterMap fun m => (g.block m).find? path

theorem Chain.overridden?_eq (h : g.Chain n l) (hl : ∀ m ∈ l, g.Orderly m) (hx : x.block = n) :
    g.overridden? x = (g.objectsWith (g.pathTo x) l).head? := by
  rw [overridden?, hx, h.ancestors_eq fun m hm => (hl m hm).lt, objectsWith, head?_filterMap]

theorem Chain.lineageFrom_eq {path : ObjectPath} (hp : path.block = none) (h : g.Chain n l)
    (hl : ∀ m ∈ l, g.Orderly m) (fuel : Nat) (objects : List ObjectId) (hfuel : l.length ≤ fuel)
    (hobjects : ∀ x ∈ objects, x.block ∉ l) :
    g.lineageFrom fuel objects (g.objectsWith path l).head? = objects ++ g.objectsWith path l := by
  induction h generalizing fuel objects with
  | last hn => cases fuel <;> simp [objectsWith, lineageFrom]
  | @step n m l hn hm ih =>
    cases hf : (g.block m).find? path with
    | none =>
      have heq : g.objectsWith path (m :: l) = g.objectsWith path l := by
        simp [objectsWith, hf]
      rw [heq]
      exact ih (fun k hk => hl k (by simp [hk])) fuel objects (by simp at hfuel; omega)
        fun x hx hmem => hobjects x hx (by simp [hmem])
    | some y =>
      obtain ⟨hy, -, hpath⟩ := (hl m (by simp)).find? hf hp
      have heq : g.objectsWith path (m :: l) = y :: g.objectsWith path l := by
        simp [objectsWith, hf]
      obtain ⟨fuel, rfl⟩ : ∃ k, fuel = k + 1 := ⟨fuel - 1, by simp at hfuel; omega⟩
      have hnew : y ∉ objects := fun hmem => hobjects y hmem (by simp [hy])
      have hrest := hm.overridden?_eq (fun k hk => hl k (by simp [hk])) hy
      rw [heq, head?_cons, lineageFrom, if_neg hnew, hrest, hpath,
        ih (fun k hk => hl k (by simp [hk])) fuel _ (by simpa using hfuel)]
      · simp
      intro x hx
      rcases mem_append.1 hx with hx | hx
      · exact fun hmem => hobjects x hx (by simp [hmem])
      · rw [mem_singleton.1 hx, hy]
        exact hm.notMem

/-- **An object inherits from the objects with its path in the ancestors.** -/
theorem Chain.lineage_eq (h : g.Chain n l) (hl : ∀ m ∈ l, g.Orderly m) (hx : x.block = n) :
    g.lineage x = x :: g.objectsWith (g.pathTo x) l := by
  have hlen := h.length_le fun m hm => (hl m hm).lt
  have hlocal : (g.pathTo x).block = none := Block.block_pathTo _
  rw [lineage, h.overridden?_eq hl hx, h.lineageFrom_eq hlocal hl _ _ (by omega)]
  · rfl
  · intro y hy
    rw [mem_singleton.1 hy, hx]
    exact h.notMem

end Catalog

end StyleBlocks
