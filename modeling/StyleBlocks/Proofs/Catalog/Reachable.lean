import Mathlib.Logic.Relation
import StyleBlocks.Catalog.Reachable
import StyleBlocks.Proofs.SortedMap

/-!
# What a block depends on

The search for the blocks that a block depends on sees exactly those that links lead to.  Links may
lead back to where they came from, to a block by several ways, and to no block at all.

Main result: `Catalog.reachable_exact`.
-/

namespace StyleBlocks

open List

namespace Catalog

variable {g : Catalog} {start n m : Nat} {seen waiting : List Nat}

/-- The first block refers to the second one, extends it or implements it. -/
def DependsOn (g : Catalog) (n m : Nat) : Prop :=
  (∃ name, (name, m) ∈ (g.block n).references.entries) ∨ (g.block n).base? = some m ∨
    m ∈ (g.block n).implements

theorem mem_edges : m ∈ g.edges n ↔ g.DependsOn n m := by
  simp [edges, Block.links, SortedMap.values, DependsOn]

/-- A search from `start`: what waits was seen, what was seen can be reached, and the links of all
that was seen and does not wait were followed. -/
structure Explores (g : Catalog) (start : Nat) (seen waiting : List Nat) : Prop where
  starts : start ∈ seen
  waits : ∀ n ∈ waiting, n ∈ seen
  reached : ∀ n ∈ seen, Relation.ReflTransGen g.DependsOn start n
  followed : ∀ n ∈ seen, n ∉ waiting → ∀ m, g.DependsOn n m → m ∈ seen

namespace Explores

theorem begin (g : Catalog) (start : Nat) : g.Explores start [start] [start] where
  starts := mem_singleton_self start
  waits n hn := hn
  reached n hn := by
    rw [mem_singleton.1 hn]
  followed n hn hwaits := absurd hn hwaits

theorem step (h : g.Explores start seen (n :: waiting)) :
    g.Explores start (unseen seen (g.edges n) ++ seen) (unseen seen (g.edges n) ++ waiting) where
  starts := mem_append_right _ h.starts
  waits m hm := by
    rcases mem_append.1 hm with hm | hm
    · exact mem_append_left _ hm
    · exact mem_append_right _ (h.waits m (mem_cons_of_mem n hm))
  reached m hm := by
    rcases mem_append.1 hm with hm | hm
    · have hlink : g.DependsOn n m := mem_edges.1 (mem_unseen.1 hm).1
      exact (h.reached n (h.waits n mem_cons_self)).tail hlink
    · exact h.reached m hm
  followed k hk hwaits m hm := by
    have hnew : k ∉ unseen seen (g.edges n) := fun hk => hwaits (mem_append_left _ hk)
    have hold : k ∈ seen := (mem_append.1 hk).resolve_left hnew
    by_cases hkn : k = n
    · subst hkn
      by_cases hseen : m ∈ seen
      · exact mem_append_right _ hseen
      · exact mem_append_left _ (mem_unseen.2 ⟨mem_edges.2 hm, hseen⟩)
    refine mem_append_right _ (h.followed k hold (fun hk => ?_) m hm)
    rcases mem_cons.1 hk with hk | hk
    · exact hkn hk
    · exact hwaits (mem_append_right _ hk)

theorem mem_iff (h : g.Explores start seen []) :
    m ∈ seen ↔ Relation.ReflTransGen g.DependsOn start m := by
  refine ⟨h.reached m, fun hm => ?_⟩
  induction hm with
  | refl => exact h.starts
  | tail _ hlink ih => exact h.followed _ ih not_mem_nil _ hlink

theorem mem_search (h : g.Explores start seen waiting) :
    m ∈ g.search seen waiting ↔ Relation.ReflTransGen g.DependsOn start m := by
  fun_induction search g seen waiting with
  | case1 seen => exact h.mem_iff
  | case2 seen n waiting new ih => exact ih h.step

end Explores

/-- **What a block depends on** is found, whether links run in circles or not: the blocks other than
itself to which one or more links lead, each once and in the order of their numbers. -/
theorem reachable_exact (g : Catalog) (n : Nat) :
    Ascends (g.reachable n) ∧
      ∀ m, m ∈ g.reachable n ↔ m ≠ n ∧ Relation.TransGen g.DependsOn n m := by
  refine ⟨ascends_sortedSet _, fun m => ?_⟩
  have hsearch : m ∈ g.search [n] [n] ↔ Relation.ReflTransGen g.DependsOn n m :=
    (Explores.begin g n).mem_search
  rw [reachable, mem_sortedSet, List.mem_filter, hsearch, bne_iff_ne,
    Relation.reflTransGen_iff_eq_or_transGen]
  constructor
  · rintro ⟨heq | hlinks, hne⟩
    · exact absurd heq hne
    · exact ⟨hne, hlinks⟩
  · rintro ⟨hne, hlinks⟩
    exact ⟨.inr hlinks, hne⟩

end Catalog

end StyleBlocks
