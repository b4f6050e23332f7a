import StyleBlocks.ClassIndex
import StyleBlocks.Clash
import StyleBlocks.Proofs.Block.SameObjects
import StyleBlocks.Proofs.Catalog.Chains
import StyleBlocks.Proofs.SortedMap

/-!
# The same blocks under other numbers

The number of a block says when the block was begun.  Where blocks of one catalog stand in another
catalog under other numbers, what is found, inherited and listed there is the same.
-/

namespace StyleBlocks

open List ClassIndex ObjectId Block

variable {l : List Nat} {m : Nat} {path : ObjectPath}

/-- The object in the same place of the block with another number. -/
def ObjectId.renumber (ρ : Nat → Nat) (x : ObjectId) : ObjectId :=
  ⟨ρ x.block, x.index⟩

namespace ClassIndex

/-- The index with its objects in the block `n`. -/
def inBlock (m : ClassIndex) (n : Nat) : ClassIndex :=
  { m with entries := m.entries.map fun e => { e with object := ⟨n, e.object.index⟩ } }

theorem render_inBlock (m : ClassIndex) (n : Nat) : (m.inBlock n).render = m.render := by
  rw [render, inBlock, map_map]
  rfl

theorem inBlock_ofBlock {g : Catalog} {n : Nat} (h : (g.block n).number = n) :
    (ofBlock g n).inBlock n = ofBlock g n := by
  rw [inBlock, ofBlock, map_map]
  refine congrArg (mk _ _) (map_congr_left fun x hx => ?_)
  obtain rfl := (block_of_mem_grouped hx).trans h
  rfl

end ClassIndex

/-! ## Blocks under other numbers -/

/-- The second block says what the first one says, with the numbers that `ρ` gives to the blocks that
it refers to and extends. -/
structure Block.IsRenumbered (ρ : Nat → Nat) (b b' : Block) : Prop where
  identifier : b'.identifier = b.identifier
  name : b'.name = b.name
  objects : b'.objects = b.objects
  references : b'.references = b.references.mapValues ρ
  base? : b'.base? = b.base?.map ρ
  stylesheet : b'.stylesheet = b.stylesheet

/-! ## Catalogs with the same blocks -/

namespace Catalog

/-- The blocks with `D` stand in the second catalog under the numbers that `ρ` gives them, and so do
the blocks that they refer to and extend. -/
structure Renumbered (D : Nat → Prop) (ρ : Nat → Nat) (g g' : Catalog) : Prop where
  injective : ∀ m n, D m → D n → ρ m = ρ n → m = n
  orderly : ∀ n, D n → g.Orderly n
  orderly' : ∀ n, D n → g'.Orderly (ρ n)
  block : ∀ n, D n → (g.block n).IsRenumbered ρ (g'.block (ρ n))
  reference : ∀ n, D n → ∀ e ∈ (g.block n).references.entries, D e.2
  base : ∀ n m, D n → (g.block n).base? = some m → D m
  chain : ∀ n, D n → ∃ l, g.Chain n l

namespace Renumbered

variable {D : Nat → Prop} {ρ : Nat → Nat} {g g' : Catalog} {n : Nat} {x : ObjectId}
  (h : Renumbered D ρ g g')

include h

theorem reference?_eq (hn : D n) (name : String) :
    (g'.block (ρ n)).reference? name = ((g.block n).reference? name).map ρ := by
  rw [reference?, (h.block n hn).references, SortedMap.find?_mapValues]
  rfl

theorem of_reference? (hn : D n) {name : String} (hm : (g.block n).reference? name = some m) :
    D m :=
  h.reference n hn (name, m) (SortedMap.mem_of_find? hm)

theorem nameFor?_eq (hn : D n) (hm : D m) :
    (g'.block (ρ n)).nameFor? (ρ m) = (g.block n).nameFor? m := by
  have hsame : ∀ e ∈ (g.block n).references.entries, (ρ e.2 == ρ m) = (e.2 == m) := by
    intro e he
    rw [Bool.eq_iff_iff, beq_iff_eq, beq_iff_eq]
    exact ⟨h.injective _ _ (h.reference n hn e he) hm, congrArg ρ⟩
  rw [nameFor?, nameFor?, (h.block n hn).references, SortedMap.mapValues, find?_map, Option.map_map]
  exact congrArg (Option.map Prod.fst) (find?_congr hsame)

theorem pathTo_eq (hx : D x.block) : g'.pathTo (x.renumber ρ) = g.pathTo x :=
  pathTo_of_objects_eq (h.block _ hx).objects x.index

theorem sourceOf_eq (hx : D x.block) : g'.sourceOf (x.renumber ρ) = g.sourceOf x := by
  rw [sourceOf, sourceOf, h.pathTo_eq hx]

theorem className_eq (hx : D x.block) : g'.className (x.renumber ρ) = g.className x :=
  className_of_objects_eq (h.block _ hx).objects (h.block _ hx).name x.index

theorem object?_eq (hx : D x.block) : g'.object? (x.renumber ρ) = g.object? x := by
  exact congrArg (·[x.index]?) (h.block _ hx).objects

/-! ### Inheritance -/

theorem chain_map (hn : D n) (hl : g.Chain n l) : g'.Chain (ρ n) (l.map ρ) ∧ ∀ m ∈ l, D m := by
  induction hl with
  | @last n hb =>
    refine ⟨.last ?_, by simp⟩
    rw [(h.block n hn).base?, hb]
    rfl
  | @step n m l hb _ ih =>
    have hm : D m := h.base n m hn hb
    obtain ⟨hchain, hl⟩ := ih hm
    refine ⟨.step ?_ hchain, forall_mem_cons.2 ⟨hm, hl⟩⟩
    rw [(h.block n hn).base?, hb]
    rfl

theorem exists_chain (hn : D n) : ∃ l, g.Chain n l ∧ g'.Chain (ρ n) (l.map ρ) ∧ ∀ m ∈ l, D m := by
  obtain ⟨l, hl⟩ := h.chain n hn
  exact ⟨l, hl, h.chain_map hn hl⟩

theorem ancestors_eq (hn : D n) :
    g'.ancestors (ρ n) = (g.ancestors n).map ρ ∧ ∀ m ∈ g.ancestors n, D m := by
  obtain ⟨l, hl, hl', hD⟩ := h.exists_chain hn
  rw [hl.ancestors_eq fun m hm => (h.orderly m (hD m hm)).lt, hl'.ancestors_eq ?_]
  · exact ⟨rfl, hD⟩
  · intro m hm
    obtain ⟨k, hk, rfl⟩ := mem_map.1 hm
    exact (h.orderly' k (hD k hk)).lt

theorem isExtendedBy_eq (hn : D n) (hm : D m) :
    g'.isExtendedBy (ρ m) (ρ n) = g.isExtendedBy m n := by
  obtain ⟨hanc, hD⟩ := h.ancestors_eq hn
  rw [isExtendedBy, isExtendedBy, hanc, Bool.eq_iff_iff, contains_iff_mem,
    contains_iff_mem, mem_map]
  constructor
  · rintro ⟨k, hk, heq⟩
    rwa [← h.injective k m (hD k hk) hm heq]
  · intro hmem
    exact ⟨m, hmem, rfl⟩

theorem block_find?_eq (hn : D n) (path : ObjectPath) :
    (g'.block (ρ n)).find? path = ((g.block n).find? path).map (renumber ρ) := by
  rw [find?_of_objects_eq (h.block n hn).objects]
  refine Option.map_congr fun x hx => ?_
  rw [renumber, block_of_find? hx, (h.orderly n hn).number, (h.orderly' n hn).number]

theorem of_block_find? (hn : D n) (hx : (g.block n).find? path = some x) : D x.block := by
  rwa [block_of_find? hx, (h.orderly n hn).number]

theorem findSome?_eq (hl : ∀ m ∈ l, D m) (path : ObjectPath) :
    ((l.map ρ).findSome? fun m => (g'.block m).find? path)
      = (l.findSome? fun m => (g.block m).find? path).map (renumber ρ) := by
  induction l with
  | nil => rfl
  | cons m l ih =>
    rw [map_cons, findSome?_cons, findSome?_cons, h.block_find?_eq (hl m (by simp)),
      ih fun k hk => hl k (by simp [hk])]
    cases (g.block m).find? path <;> rfl

theorem of_findSome? (hl : ∀ m ∈ l, D m)
    (hx : (l.findSome? fun m => (g.block m).find? path) = some x) : D x.block := by
  obtain ⟨m, hm, hx⟩ := exists_of_findSome?_eq_some hx
  exact h.of_block_find? (hl m hm) hx

theorem overridden?_eq (hx : D x.block) :
    g'.overridden? (x.renumber ρ) = (g.overridden? x).map (renumber ρ) := by
  obtain ⟨hanc, hD⟩ := h.ancestors_eq hx
  rw [overridden?, overridden?, h.pathTo_eq hx]
  change ((g'.ancestors (ρ x.block)).findSome? _) = _
  rw [hanc, h.findSome?_eq hD]

theorem of_overridden? (hx : D x.block) {y : ObjectId} (hy : g.overridden? x = some y) :
    D y.block :=
  h.of_findSome? (h.ancestors_eq hx).2 hy

theorem lineage_eq (hx : D x.block) :
    g'.lineage (x.renumber ρ) = (g.lineage x).map (renumber ρ) ∧ ∀ y ∈ g.lineage x, D y.block := by
  obtain ⟨l, hl, hl', hD⟩ := h.exists_chain hx
  have hobjects : g'.objectsWith (g.pathTo x) (l.map ρ)
      = (g.objectsWith (g.pathTo x) l).map (renumber ρ) := by
    rw [objectsWith, objectsWith, filterMap_map, map_filterMap]
    exact filterMap_congr fun m hm => h.block_find?_eq (hD m hm) _
  have horderly' : ∀ m ∈ l.map ρ, g'.Orderly m := by
    intro m hm
    obtain ⟨k, hk, rfl⟩ := mem_map.1 hm
    exact h.orderly' k (hD k hk)
  rw [hl.lineage_eq (fun m hm => h.orderly m (hD m hm)) rfl, hl'.lineage_eq horderly' rfl,
    h.pathTo_eq hx, hobjects]
  refine ⟨rfl, forall_mem_cons.2 ⟨hx, fun y hy => ?_⟩⟩
  obtain ⟨m, hm, hy⟩ := mem_filterMap.1 hy
  exact h.of_block_find? (hD m hm) hy

theorem classNames_eq (hx : D x.block) : g'.classNames (x.renumber ρ) = g.classNames x := by
  obtain ⟨hlin, hD⟩ := h.lineage_eq hx
  rw [classNames, classNames, hlin, map_map]
  exact map_congr_left fun y hy => h.className_eq (hD y hy)

/-! ### Looking up -/

theorem find?_eq (hn : D n) (path : ObjectPath) :
    g'.find? (ρ n) path = (g.find? n path).map (renumber ρ) := by
  obtain ⟨hanc, hD⟩ := h.ancestors_eq hn
  rw [find?, find?, hanc, ← map_cons, h.findSome?_eq (forall_mem_cons.2 ⟨hn, hD⟩)]

theorem of_find? (hn : D n) (hx : g.find? n path = some x) : D x.block :=
  h.of_findSome? (forall_mem_cons.2 ⟨hn, (h.ancestors_eq hn).2⟩) hx

theorem find?_name_eq (hn : D n) (name : String) :
    ((ρ n :: g'.ancestors (ρ n)).find? fun m => (g'.block m).name == name)
      = ((n :: g.ancestors n).find? fun m => (g.block m).name == name).map ρ := by
  obtain ⟨hanc, hD⟩ := h.ancestors_eq hn
  rw [hanc, ← map_cons, find?_map]
  refine congrArg (Option.map ρ) (find?_congr fun m hm => ?_)
  have hm : D m := (forall_mem_cons.2 ⟨hn, hD⟩) m hm
  rw [Function.comp_apply, (h.block m hm).name]

theorem of_find?_name (hn : D n) {name : String}
    (hm : ((n :: g.ancestors n).find? fun m => (g.block m).name == name) = some m) : D m :=
  forall_mem_cons.2 ⟨hn, (h.ancestors_eq hn).2⟩ m (mem_of_find?_eq_some hm)

theorem named?_eq (hn : D n) (path : ObjectPath) :
    g'.named? (ρ n) path = (g.named? n path).map (renumber ρ) := by
  unfold named?
  cases path.block with
  | none => exact h.find?_eq hn path
  | some name =>
    dsimp only
    rw [h.reference?_eq hn, h.find?_name_eq hn]
    cases hr : (g.block n).reference? name with
    | some target => exact h.find?_eq (h.of_reference? hn hr) _
    | none =>
      cases hm : (n :: g.ancestors n).find? fun m => (g.block m).name == name with
      | none => rfl
      | some m => exact h.find?_eq (h.of_find?_name hn hm) _

theorem of_named? (hn : D n) (hx : g.named? n path = some x) : D x.block := by
  unfold named? at hx
  split at hx
  · exact h.of_find? hn hx
  split at hx
  · rename_i hr
    exact h.of_find? (h.of_reference? hn hr) hx
  · obtain ⟨m, hm, hx⟩ := Option.bind_eq_some_iff.1 hx
    exact h.of_find? (h.of_find?_name hn hm) hx

/-! ### Output -/

theorem compileCompound_eq (hn : D n) (compound : Compound) :
    g'.compileCompound (ρ n) compound = g.compileCompound n compound := by
  simp only [compileCompound, h.named?_eq hn, (h.block n hn).name]
  refine bind_congr fun found => ?_
  obtain ⟨path, rest⟩ := found
  cases hx : g.named? n path with
  | none => rfl
  | some x =>
    dsimp only [Option.map_some]
    rw [h.className_eq (h.of_named? hn hx)]

theorem compileSelector_eq (hn : D n) (s : Selector) :
    g'.compileSelector (ρ n) s = g.compileSelector n s := by
  simp only [compileSelector, h.compileCompound_eq hn]

theorem sharedPropertiesFor_eq {y : ObjectId} (hx : D x.block) (hy : D y.block)
    (pseudo : Option String) :
    sharedPropertiesFor g' (x.renumber ρ) (y.renumber ρ) pseudo
      = sharedPropertiesFor g x y pseudo := by
  rw [sharedPropertiesFor, sharedPropertiesFor, sharedProperties, sharedProperties,
    h.object?_eq hx, h.object?_eq hy]

theorem entryOf_eq (hx : D x.block) :
    entryOf g' (x.renumber ρ) = { entryOf g x with object := x.renumber ρ } := by
  rw [entryOf, entryOf, h.sourceOf_eq hx, h.classNames_eq hx]
  exact congrArg (IndexEntry.mk _ _ · _) (exportName_of_objects_eq (h.block _ hx).objects x.index)

/-- **The index of a block is the same**, but for the block's number. -/
theorem ofBlock_eq (hn : D n) : ofBlock g' (ρ n) = (ofBlock g n).inBlock (ρ n) := by
  have hblock := h.block n hn
  have hentries : (g'.block (ρ n)).grouped.map (entryOf g') = (g.block n).grouped.map
      fun x => { entryOf g x with object := ⟨ρ n, x.index⟩ } := by
    rw [grouped_of_objects_eq hblock.objects, map_map]
    refine map_congr_left fun x hx => ?_
    obtain rfl : x.block = n := (block_of_mem_grouped hx).trans (h.orderly n hn).number
    rw [Function.comp_apply, (h.orderly' _ hn).number]
    exact h.entryOf_eq hn
  rw [ofBlock, ofBlock, hblock.name, hblock.identifier, hentries, inBlock, map_map]
  rfl

theorem listingLine_eq (hn : D n) (indent : String) (i : Nat) :
    g'.listingLine indent ⟨(g'.block (ρ n)).number, i⟩
      = g.listingLine indent ⟨(g.block n).number, i⟩ := by
  have hx : D (⟨n, i⟩ : ObjectId).block := hn
  rw [(h.orderly' n hn).number, (h.orderly n hn).number, listingLine, listingLine]
  rw [← h.sourceOf_eq hx, ← h.classNames_eq hx]
  rfl

theorem listing_eq (hn : D n) : g'.listing (ρ n) = g.listing n := by
  have hblock := h.block n hn
  simp only [listing, hblock.identifier, hblock.objects, h.listingLine_eq hn]

end Renumbered

end Catalog

end StyleBlocks
