import Mathlib.Data.List.Chain
import StyleBlocks.Proofs.Compilation.References

/-!
# Ancestors and inherited objects

The ancestors of a block are found by going from base to base, and what an object inherits from by
going from the object to the one that it overrides, where each step looks the object's path up in
the ancestors of the block that was reached.  Both ways visit the same blocks.

Main result: `Session.Reachable.lineage_ancestors`.
-/

namespace StyleBlocks

namespace Catalog

variable {g : Catalog} {n m : Nat} {l : List Nat}

/-- The block `n` extends the block `m`, and no block stands between them. -/
def Extends (g : Catalog) (n m : Nat) : Prop :=
  (g.block n).base? = some m

namespace Chain

theorem isChain (h : g.Chain n l) : (n :: l).IsChain g.Extends := by
  induction h with
  | last => exact .singleton _
  | step hn _ ih => exact .cons_cons hn ih

/-- **A chain of bases holds all blocks that are extended, directly or not.** -/
theorem mem_iff_transGen (h : g.Chain n l) : m ∈ l ↔ Relation.TransGen g.Extends n m := by
  induction h with
  | @last n hn =>
    refine ⟨fun hm => absurd hm (List.not_mem_nil), fun hm => ?_⟩
    obtain ⟨k, hk, -⟩ := Relation.TransGen.head'_iff.1 hm
    cases hn.symm.trans hk
  | @step n k l hn _ ih =>
    rw [List.mem_cons, Relation.TransGen.head'_iff]
    constructor
    · rintro (rfl | hm)
      · exact ⟨m, hn, .refl⟩
      · exact ⟨k, hn, (ih.1 hm).to_reflTransGen⟩
    · rintro ⟨k', hk', hm⟩
      obtain rfl : k = k' := Option.some.inj (hn.symm.trans hk')
      -- either the base itself is meant, or a block that the base extends
      exact (Relation.reflTransGen_iff_eq_or_transGen.1 hm).imp_right ih.2

end Chain

theorem nodup_objectsWith {path : ObjectPath} (hp : path.block = none) (hl : l.Nodup)
    (horderly : ∀ m ∈ l, g.Orderly m) : (g.objectsWith path l).Nodup := by
  refine List.pairwise_filterMap.2 (hl.imp_of_mem fun {m m'} hm hm' hne x hx y hy hxy => hne ?_)
  obtain ⟨hxm, -, -⟩ := (horderly m hm).find? hx hp
  obtain ⟨hym, -, -⟩ := (horderly m' hm').find? hy hp
  rw [← hxm, ← hym, hxy]

end Catalog

/-- **What an object inherits from.**  The ancestors of a complete block are the blocks that it
extends, directly or not, each once and the nearest first.  An object of the block inherits from the
objects with its path in the ancestors, in their order and each once, and from no other object; and
the block finds the object by its path. -/
theorem Session.Reachable.lineage_ancestors {s : Session} (hs : s.Reachable) {x : ObjectId}
    (hcomplete : (s.catalog.block x.block).IsComplete)
    (hi : x.index < (s.catalog.block x.block).objects.length) :
    (∀ m, m ∈ s.catalog.ancestors x.block ↔ Relation.TransGen s.catalog.Extends x.block m) ∧
      (x.block :: s.catalog.ancestors x.block).Nodup ∧
      (x.block :: s.catalog.ancestors x.block).IsChain s.catalog.Extends ∧
      s.catalog.lineage x
        = x :: s.catalog.objectsWith (s.catalog.pathTo x) (s.catalog.ancestors x.block) ∧
      (s.catalog.lineage x).Nodup ∧
      (∀ a, s.catalog.isInheritedBy a x = true ↔
        a ∈ s.catalog.objectsWith (s.catalog.pathTo x) (s.catalog.ancestors x.block)) ∧
      s.catalog.named? x.block (s.catalog.pathTo x) = some x := by
  have hchain : s.catalog.Chain x.block (s.catalog.ancestors x.block) :=
    (hs.sound.chain hcomplete).1
  have horderly : ∀ m ∈ s.catalog.ancestors x.block, s.catalog.Orderly m :=
    fun m hm => hs.sound.orderly ((hs.sound.chain hcomplete).2 m hm)
  have hlocal : (s.catalog.pathTo x).block = none := Block.block_pathTo x.index
  have hlineage := hchain.lineage_eq horderly rfl
  have hall : s.catalog.lineage x = s.catalog.objectsWith (s.catalog.pathTo x)
      (x.block :: s.catalog.ancestors x.block) := hs.sound.lineage_eq ⟨hcomplete, hi⟩
  refine ⟨fun m => hchain.mem_iff_transGen, hchain.nodup, hchain.isChain, hlineage, ?_,
    fun a => ?_, ?_⟩
  · rw [hall]
    exact Catalog.nodup_objectsWith hlocal hchain.nodup
      (List.forall_mem_cons.2 ⟨hs.sound.orderly hcomplete, horderly⟩)
  · rw [Catalog.isInheritedBy, hlineage, List.drop_one, List.tail_cons, List.contains_iff_mem]
  · rw [Catalog.named?, hlocal]
    exact hs.sound.find?_pathTo ⟨hcomplete, hi⟩

/-- Three blocks that extend each other; the one in the middle has no class of its own. -/
def skippedLevel : Session :=
  .ofFiles [("base.css", ".b \x7b color: red \x7d .a \x7b color: red \x7d"),
    ("middle.css", "@block-reference base from \"base.css\"; :scope \x7b extends: base \x7d"),
    ("child.css", "@block-reference middle from \"middle.css\"; " ++
      ":scope \x7b extends: middle \x7d .a \x7b color: blue \x7d")] ["child.css"]

theorem skippedLevel_ancestors : (skippedLevel.catalog.block 0).stylesheet.isSome = true ∧
    1 < (skippedLevel.catalog.block 0).objects.length ∧ skippedLevel.catalog.ancestors 0 = [1, 2] ∧
    skippedLevel.catalog.objectsWith (skippedLevel.catalog.pathTo ⟨0, 1⟩) [1, 2] = [⟨2, 2⟩] := by
  decide +kernel

theorem lineage_ancestors_skippedLevel :
    (∀ m, m ∈ [1, 2] ↔ Relation.TransGen skippedLevel.catalog.Extends 0 m) ∧
      [0, 1, 2].IsChain skippedLevel.catalog.Extends ∧
      skippedLevel.catalog.lineage ⟨0, 1⟩ = [⟨0, 1⟩, ⟨2, 2⟩] ∧
      (∀ a, skippedLevel.catalog.isInheritedBy a ⟨0, 1⟩ = true ↔ a = ⟨2, 2⟩) ∧
      skippedLevel.catalog.named? 0 (skippedLevel.catalog.pathTo ⟨0, 1⟩) = some ⟨0, 1⟩ := by
  obtain ⟨hcomplete, hi, hancestors, hobjects⟩ := skippedLevel_ancestors
  obtain ⟨hmem, -, hchain, hlineage, -, hinherits, hnamed⟩ := @Session.Reachable.lineage_ancestors
    skippedLevel (Session.reachable_ofFiles _ _) ⟨0, 1⟩ hcomplete hi
  rw [hancestors] at hmem hchain hlineage hinherits
  rw [hobjects] at hlineage hinherits
  exact ⟨hmem, hchain, hlineage, fun a => (hinherits a).trans List.mem_singleton, hnamed⟩

end StyleBlocks
