import StyleBlocks.Catalog

/-!
# Dependencies between blocks

A block depends on the blocks it refers to, extends and implements, and on all that these depend on.
A search finds them: a block that is seen for the first time waits until its own links are followed.
-/

namespace StyleBlocks

def Block.links (b : Block) : List Nat :=
  b.references.values ++ b.base?.toList ++ b.implements

namespace Catalog

def edges (g : Catalog) (n : Nat) : List Nat :=
  (g.block n).links

/-- The blocks that are not yet seen, each once, the last one first. -/
def unseen (seen : List Nat) : List Nat → List Nat
  | [] => []
  | n :: ns => if n ∈ seen then unseen seen ns else unseen (n :: seen) ns ++ [n]

theorem mem_unseen {seen ns : List Nat} {m : Nat} :
    m ∈ unseen seen ns ↔ m ∈ ns ∧ m ∉ seen := by
  induction ns generalizing seen with
  | nil => simp [unseen]
  | cons n ns ih =>
    unfold unseen
    by_cases hn : n ∈ seen
    · rw [if_pos hn, ih]
      grind
    · rw [if_neg hn, List.mem_append, ih]
      grind

/-- How many links lead to blocks that are not seen. -/
def linksLeft (g : Catalog) (seen : List Nat) : Nat :=
  (g.blocks.flatMap Block.links).countP (· ∉ seen)

theorem mem_links_of_mem_edges {g : Catalog} {n m : Nat} (h : m ∈ g.edges n) :
    m ∈ g.blocks.flatMap Block.links := by
  unfold edges block at h
  cases hb : g.blocks[n]? with
  | none =>
    -- a block that is not there has no links
    rw [hb] at h
    cases h
  | some b =>
    rw [hb] at h
    exact List.mem_flatMap.2 ⟨b, List.mem_of_getElem? hb, h⟩

theorem linksLeft_lt {g : Catalog} {seen : List Nat} {n m : Nat}
    (h : m ∈ unseen seen (g.edges n)) :
    g.linksLeft (unseen seen (g.edges n) ++ seen) < g.linksLeft seen := by
  obtain ⟨hedge, hseen⟩ := mem_unseen.1 h
  simp only [linksLeft, List.countP_eq_length_filter]
  have hfilter : (g.blocks.flatMap Block.links).filter (· ∉ unseen seen (g.edges n) ++ seen)
      = ((g.blocks.flatMap Block.links).filter (· ∉ seen)).filter
        (· ∉ unseen seen (g.edges n)) := by
    rw [List.filter_filter]
    congr 1
    funext i
    simp
  rw [hfilter]
  exact List.length_filter_lt_length_iff_exists.2
    ⟨m, List.mem_filter.2 ⟨mem_links_of_mem_edges hedge, by simpa using hseen⟩, by simpa using h⟩

/-- What is seen when the blocks that wait are looked at one after the other, `seen` being what was
seen before. -/
def search (g : Catalog) (seen : List Nat) : List Nat → List Nat
  | [] => seen
  | n :: waiting =>
    let new := unseen seen (g.edges n)
    search g (new ++ seen) (new ++ waiting)
termination_by waiting => (g.linksLeft seen, waiting.length)
decreasing_by
  cases h : unseen seen (g.edges n) with
  | nil => exact .right _ (Nat.lt_succ_self _)
  | cons m ms => exact .left _ _ (h ▸ linksLeft_lt (h ▸ List.mem_cons_self))

/-- The blocks that a block depends on, itself left out, in the order of their numbers. -/
def reachable (g : Catalog) (n : Nat) : List Nat :=
  sortedSet ((g.search [n] [n]).filter (· != n))

end Catalog

end StyleBlocks
