import Mathlib.Logic.Relation
import StyleBlocks.Proofs.Catalog.Chains
import StyleBlocks.Session.Reading

/-!
# Blocks that stand on complete blocks

A block is complete once it has its stylesheet.  What a block says depends on the blocks it links to,
on those that they link to, and so on.  A block is grounded if all of these are complete; since this
is an inductive notion, the links of a grounded block lead in no circle.  Complete blocks do not
change, so a grounded block stays grounded, and what it sees stays what it is.

* `Catalog.Grounded.keep`: **a grounded block stays grounded.**
-/

namespace StyleBlocks

variable {m : Nat} {path : ObjectPath}

def Block.IsComplete (b : Block) : Prop :=
  b.stylesheet.isSome = true

theorem Block.isComplete_of_stylesheet {b : Block} {sheet : Stylesheet}
    (h : b.stylesheet = some sheet) : b.IsComplete :=
  Option.isSome_iff_exists.2 ⟨sheet, h⟩

namespace Catalog

variable {g g' : Catalog} {n : Nat}

theorem lt_of_isComplete (h : (g.block n).IsComplete) : n < g.blocks.length := by
  by_contra hn
  rw [block, List.getElem?_eq_none (by omega)] at h
  cases h

/-- Complete blocks stay as they are. -/
def KeepsComplete (g g' : Catalog) : Prop :=
  ∀ m, (g.block m).IsComplete → g'.block m = g.block m

theorem KeepsComplete.isComplete (h : g.KeepsComplete g') (hm : (g.block m).IsComplete) :
    (g'.block m).IsComplete := by
  rw [h m hm]
  exact hm

theorem KeepsComplete.trans {g'' : Catalog} (h : g.KeepsComplete g') (h' : g'.KeepsComplete g'') :
    g.KeepsComplete g'' :=
  fun m hm => (h' m (h.isComplete hm)).trans (h m hm)

theorem KeepsComplete.chain (h : g.KeepsComplete g') {l : List Nat} (hc : g.Chain n l)
    (hn : (g.block n).IsComplete) (hl : ∀ m ∈ l, (g.block m).IsComplete) : g'.Chain n l := by
  induction hc with
  | last hbase => exact .last (by rw [h _ hn]; exact hbase)
  | step hbase _ ih =>
    exact .step (by rw [h _ hn]; exact hbase) (ih (hl _ (by simp)) fun m hm => hl m (by simp [hm]))

/-! ## Links -/

/-- The block refers to, extends or implements another one, or exports it under a name that is not
kept for the block itself. -/
inductive BlockLinks (b : Block) (m : Nat) : Prop
  | reference (name : String) (h : (name, m) ∈ b.references.entries)
  | base (h : b.base? = some m)
  | implements (h : m ∈ b.implements)
  | exported (name : String) (hname : name ≠ selfExport) (h : (name, m) ∈ b.exports.entries)

theorem BlockLinks.congr {b b' : Block} (h : BlockLinks b' m) (hr : b'.references = b.references)
    (he : b'.exports = b.exports) (hb : b'.base = b.base) (hi : b'.implements = b.implements) :
    BlockLinks b m := by
  cases h with
  | reference name h => exact .reference name (hr ▸ h)
  | base h => exact .base (by rwa [Block.base?, hb] at h)
  | implements h => exact .implements (hi ▸ h)
  | exported name hname h => exact .exported name hname (he ▸ h)

/-- The block `n` refers to, extends, implements or exports the block `m`. -/
def LinksTo (g : Catalog) (n m : Nat) : Prop :=
  BlockLinks (g.block n) m

/-- The block is complete, and so are all blocks to which links lead from it. -/
inductive Grounded (g : Catalog) : Nat → Prop
  | intro {n : Nat} (hn : (g.block n).IsComplete) (h : ∀ m, g.LinksTo n m → Grounded g m) :
      Grounded g n

namespace Grounded

variable (h : g.Grounded n)

include h

theorem isComplete : (g.block n).IsComplete := by
  cases h with
  | intro hn _ => exact hn

theorem of_linksTo (hm : g.LinksTo n m) : g.Grounded m := by
  cases h with
  | intro _ hl => exact hl m hm

/-- **No links lead from a grounded block back to itself.** -/
theorem not_transGen : ¬Relation.TransGen g.LinksTo n n := by
  induction h with
  | @intro n _ _ ih =>
    intro hcycle
    -- the circle also leads from the first block on it back to that block
    obtain ⟨m, hm, hback⟩ := Relation.TransGen.head'_iff.1 hcycle
    exact ih m hm (Relation.TransGen.tail' hback hm)

theorem ne_of_linksTo (hm : g.LinksTo n m) : m ≠ n := by
  rintro rfl
  exact h.not_transGen (.single hm)

theorem keep (hk : g.KeepsComplete g') : g'.Grounded n := by
  induction h with
  | @intro n hn _ ih =>
    refine .intro (hk.isComplete hn) fun m hm => ih m ?_
    rwa [LinksTo, hk n hn] at hm

theorem chain : ∃ l, g.Chain n l ∧ ∀ m ∈ l, (g.block m).IsComplete := by
  induction h with
  | @intro n _ hl ih =>
    cases hb : (g.block n).base? with
    | none => exact ⟨[], .last hb, by simp⟩
    | some m =>
      obtain ⟨l, hchain, hcomplete⟩ := ih m (.base hb)
      refine ⟨m :: l, .step hb hchain, fun k hk => ?_⟩
      rcases List.mem_cons.1 hk with rfl | hk
      · exact (hl k (.base hb)).isComplete
      · exact hcomplete k hk

theorem find?_eq (hk : g.KeepsComplete g') (path : ObjectPath) :
    g'.find? n path = g.find? n path := by
  obtain ⟨l, hchain, hl⟩ := h.chain
  have hchain' := hk.chain hchain h.isComplete hl
  rw [find?, find?, hchain.ancestors_eq fun m hm => lt_of_isComplete (hl m hm),
    hchain'.ancestors_eq fun m hm => lt_of_isComplete (hk.isComplete (hl m hm))]
  have hsame : ∀ m ∈ n :: l, g'.block m = g.block m := by
    intro m hm
    rcases List.mem_cons.1 hm with rfl | hm
    · exact hk m h.isComplete
    · exact hk m (hl m hm)
  generalize n :: l = ms at hsame
  induction ms with
  | nil => rfl
  | cons m l ih =>
    rw [List.findSome?_cons, List.findSome?_cons, hsame m (by simp),
      ih fun k hk => hsame k (by simp [hk])]

end Grounded

/-! ## What selectors name -/

/-- What the path of a compound names in a selector of the block `n`: an object of the block itself
or, behind the name of a reference, a global state of the block that is referred to. -/
inductive Sees (g : Catalog) (n : Nat) (path : ObjectPath) (id : ObjectId) : Prop
  | own (hp : path.block = none) (h : (g.block n).find? path = some id)
  | foreign {name : String} {target : Nat} (hp : path.block = some name)
      (hname : (g.block n).reference? name = some target) (ht : g.Grounded target)
      (h : g.find? target path.toLocal = some id) (hid : (g.block id.block).IsComplete)
      (hglobal : (g.object? id).any StyleObject.isGlobal = true)

/-- The compound is read as the path of an object that the block `n` sees. -/
def Reads (g : Catalog) (n : Nat) (compound : Compound) : Prop :=
  ∃ path rest id, ObjectPath.ofCompound compound = .ok (path, rest) ∧ g.Sees n path id

theorem Sees.named?_eq {id : ObjectId} (h : g.Sees n path id) : g.named? n path = some id := by
  cases h with
  | own hp h =>
    simp only [named?, hp, find?, List.findSome?_cons, h]
  | foreign hp hname _ h =>
    simp only [named?, hp, hname]
    exact h

/-- The block `n` keeps its references, and what it finds it still finds. -/
structure KeepsView (g g' : Catalog) (n : Nat) : Prop where
  complete : g.KeepsComplete g'
  references : (g'.block n).references = (g.block n).references
  finds : ∀ path id, (g.block n).find? path = some id → (g'.block n).find? path = some id

theorem Sees.keep {id : ObjectId} (h : g.Sees n path id) (hk : g.KeepsView g' n) :
    g'.Sees n path id := by
  cases h with
  | own hp h => exact .own hp (hk.finds path id h)
  | foreign hp hname ht h hid hglobal =>
    refine .foreign hp ?_ (ht.keep hk.complete) ?_ (hk.complete.isComplete hid) ?_
    · rw [Block.reference?, hk.references]
      exact hname
    · rw [ht.find?_eq hk.complete]
      exact h
    · rw [object?, hk.complete _ hid]
      exact hglobal

theorem Reads.keep {compound : Compound} (h : g.Reads n compound) (hk : g.KeepsView g' n) :
    g'.Reads n compound := by
  obtain ⟨path, rest, id, hpath, hsees⟩ := h
  exact ⟨path, rest, id, hpath, hsees.keep hk⟩

/-- Every compound of every selector of the rule is that of an object which the block `n` sees. -/
def ReadsRule (g : Catalog) (n : Nat) (r : Rule) : Prop :=
  ∃ selectors, Selector.parseList r.selector = .ok selectors ∧
    ∀ s ∈ selectors, ∀ compound ∈ s.compounds, g.Reads n compound

theorem ReadsRule.keep {r : Rule} (h : g.ReadsRule n r) (hk : g.KeepsView g' n) :
    g'.ReadsRule n r := by
  obtain ⟨selectors, hparse, hreads⟩ := h
  exact ⟨selectors, hparse, fun s hs compound hc => (hreads s hs compound hc).keep hk⟩

end Catalog

/-- The debug statement is well written, and the block knows the block that it names. -/
def Block.CanDebug (b : Block) (head : AtHead) : Prop :=
  ∃ request, DebugRequest.parse head.params = .ok request ∧
    (request.reference = "self" ∨ ∃ m, b.reference? request.reference = some m)

theorem Block.CanDebug.congr {b b' : Block} {head : AtHead} (h : b.CanDebug head)
    (hr : b'.references = b.references) : b'.CanDebug head := by
  obtain ⟨request, hparse, hknown⟩ := h
  refine ⟨request, hparse, hknown.imp_right fun ⟨m, hm⟩ => ⟨m, ?_⟩⟩
  rw [reference?, hr]
  exact hm

end StyleBlocks
