import StyleBlocks.Proofs.Session.Reading

/-!
# Portraits of blocks

The numbers of blocks say when they were begun.  The portrait of a block has the identifiers of other
blocks in the place of their numbers, so blocks of two workspaces can be compared by their portraits.
-/

namespace StyleBlocks

open Catalog SortedMap

variable {f : Block → Block}

/-- A block with the identifiers of other blocks in the place of their numbers. -/
structure Portrait where
  identifier : String
  objects : List StyleObject
  references : SortedMap String String
  exports : SortedMap String String
  base : Option (String × String)

/-- The portrait of a block, where `ident` gives the identifiers of the blocks. -/
def Block.portrait (ident : Nat → String) (b : Block) : Portrait where
  identifier := b.identifier
  objects := b.objects
  references := b.references.mapValues ident
  exports := b.exports.mapValues ident
  base := b.base.map fun e => (e.1, ident e.2)

namespace Portrait

def introduce (p : Portrait) (name identifier : String) : Portrait :=
  { p with references := p.references.insert name identifier }

def extend (p : Portrait) (name identifier : String) : Portrait :=
  { p with base := some (name, identifier) }

def offer (p : Portrait) (name identifier : String) : Portrait :=
  { p with exports := p.exports.insert name identifier }

end Portrait

namespace Block

variable {b c : Block} {name : String} {t : Nat}

theorem fixed_portrait_of_introduce (h : b.introduce name t = .ok c) :
    Workspace.fixed c = Workspace.fixed b ∧
      ∀ ident, c.portrait ident = (b.portrait ident).introduce name (ident t) := by
  unfold introduce at h
  split at h
  · cases h
  · cases h
    exact ⟨rfl, fun ident => by rw [portrait, mapValues_insert]; rfl⟩

theorem fixed_portrait_of_offer (h : b.offer name t = .ok c) :
    Workspace.fixed c = Workspace.fixed b ∧
      ∀ ident, c.portrait ident = (b.portrait ident).offer name (ident t) := by
  unfold offer at h
  split at h
  · cases h
  split at h
  · cases h
  · cases h
    exact ⟨rfl, fun ident => by rw [portrait, mapValues_insert]; rfl⟩

end Block

def Block.drawn (b : Block) : String × List StyleObject × SortedMap String Nat ×
    SortedMap String Nat × Option (String × Nat) :=
  (b.identifier, b.objects, b.references, b.exports, b.base)

theorem Block.portrait_of_drawn_eq {b b' : Block} (h : b'.drawn = b.drawn) (ident : Nat → String) :
    b'.portrait ident = b.portrait ident := by
  simp only [drawn, Prod.mk.injEq] at h
  obtain ⟨hid, hobjects, hreferences, hexports, hbase⟩ := h
  rw [portrait, portrait, hid, hobjects, hreferences, hexports, hbase]

/-- Only the identifiers of the blocks to which the block links matter, and of those that it exports as
itself. -/
theorem Block.portrait_congr {b : Block} {ident ident' : Nat → String}
    (hlinks : ∀ m, BlockLinks b m → ident' m = ident m)
    (hself : ∀ m, (selfExport, m) ∈ b.exports.entries → ident' m = ident m) :
    b.portrait ident' = b.portrait ident := by
  have hreferences : b.references.mapValues ident' = b.references.mapValues ident :=
    mapValues_congr _ fun e he => hlinks e.2 (.reference e.1 he)
  have hexports : b.exports.mapValues ident' = b.exports.mapValues ident := by
    refine mapValues_congr _ fun e he => ?_
    by_cases hname : e.1 = selfExport
    · exact hself e.2 (hname ▸ he)
    · exact hlinks e.2 (.exported e.1 hname he)
  have hbase : b.base.map (fun e => (e.1, ident' e.2)) = b.base.map fun e => (e.1, ident e.2) :=
    Option.map_congr fun e he => by rw [hlinks e.2 (.base (by rw [Block.base?, he]; rfl))]
  rw [Block.portrait, Block.portrait, hreferences, hexports, hbase]

namespace Catalog

variable {g : Catalog} {m n : Nat}

def identifierOf (g : Catalog) (n : Nat) : String :=
  (g.block n).identifier

def portrait (g : Catalog) (n : Nat) : Portrait :=
  (g.block n).portrait g.identifierOf

theorem identifierOf_modifyBlock (hf : (f (g.block n)).identifier = (g.block n).identifier) :
    (g.modifyBlock n f).identifierOf = g.identifierOf := by
  funext m
  unfold identifierOf
  by_cases hm : m = n
  · subst hm
    rcases Nat.lt_or_ge m g.blocks.length with h | h
    · rw [block_modifyBlock_self h, hf]
    · rw [block_modifyBlock_of_le h]
  · rw [block_modifyBlock_of_ne hm]

theorem portrait_modifyBlock (hlt : n < g.blocks.length)
    (hf : (f (g.block n)).identifier = (g.block n).identifier) :
    (g.modifyBlock n f).portrait n = (f (g.block n)).portrait g.identifierOf := by
  rw [portrait, identifierOf_modifyBlock hf, block_modifyBlock_self hlt]

end Catalog

namespace Workspace

variable {loading : List String} {k : String} {m n : Nat} {w₀ w w' : Workspace}

theorem EditsOnly.identifierOf_eq (h : w.EditsOnly fixed n w') :
    w'.catalog.identifierOf = w.catalog.identifierOf := by
  funext m
  by_cases hm : m = n
  · subst hm
    exact congrArg (·.2.1) h.kept
  · exact congrArg Block.identifier (h.others m hm)

theorem EditsOnly.portrait_eq (h : w.EditsOnly fixed n w') (hm : m ≠ n) :
    w'.catalog.portrait m = w.catalog.portrait m := by
  rw [portrait, portrait, h.others m hm, h.identifierOf_eq]

theorem Sound.portrait_eq {g : Catalog} (h : w.Sound loading) (hm : (w.catalog.block m).IsComplete)
    (hk : w.catalog.KeepsComplete g) : g.portrait m = w.catalog.portrait m := by
  have hsame : ∀ t, (w.catalog.block t).IsComplete → g.identifierOf t = w.catalog.identifierOf t :=
    fun t ht => congrArg Block.identifier (hk t ht)
  obtain ⟨sheet, hsheet⟩ := Option.isSome_iff_exists.1 hm
  rw [portrait, portrait, hk m hm]
  refine Block.portrait_congr (fun t ht => hsame t ?_) fun t ht => hsame t ?_
  · exact ((h.grounded hm).of_linksTo ht).isComplete
  · rw [(h.soundAt m sheet hsheet).exportsSelf t ht]
    exact hm

theorem Linked.portrait_eq {g : Catalog} (h : Linked loading k n w₀ w)
    (hn : (g.block n).drawn = (w.catalog.block n).drawn) (hk : w.catalog.KeepsComplete g) :
    g.portrait n = w.catalog.portrait n := by
  rw [portrait, portrait, Block.portrait_of_drawn_eq hn]
  refine Block.portrait_congr (fun t ht => ?_) fun t ht => ?_
  · exact congrArg Block.identifier (hk t (h.complete t ht))
  · rw [h.exportsSelf t ht]
    exact congrArg Prod.fst hn

end Workspace

/-! ## Two blocks with one portrait -/

namespace Workspace

variable {m n m' n' : Nat} {w w' : Workspace}

/-- The blocks `n` and `n'` of two workspaces have the same portrait. -/
structure Twins (n n' : Nat) (w w' : Workspace) : Prop where
  lt : n < w.next
  lt' : n' < w'.next
  number : (w.catalog.block n).number = n
  number' : (w'.catalog.block n').number = n'
  portrait : w'.catalog.portrait n' = w.catalog.portrait n

namespace Twins

section

variable {name : String} {t t' : Nat} (h : Twins n n' w w')

include h

theorem objects : (w'.catalog.block n').objects = (w.catalog.block n).objects :=
  congrArg Portrait.objects h.portrait

theorem references :
    (w'.catalog.block n').references.mapValues w'.catalog.identifierOf
      = (w.catalog.block n).references.mapValues w.catalog.identifierOf :=
  congrArg Portrait.references h.portrait

theorem exports :
    (w'.catalog.block n').exports.mapValues w'.catalog.identifierOf
      = (w.catalog.block n).exports.mapValues w.catalog.identifierOf :=
  congrArg Portrait.exports h.portrait

theorem of_reference? (ht : (w.catalog.block n).reference? name = some t)
    (ht' : (w'.catalog.block n').reference? name = some t') :
    w'.catalog.identifierOf t' = w.catalog.identifierOf t := by
  have hfind := congrArg (SortedMap.find? · name) h.references
  simp only [find?_mapValues] at hfind
  rw [Block.reference?] at ht ht'
  rw [ht, ht'] at hfind
  exact Option.some.inj hfind

theorem of_export? (ht : (w.catalog.block n).export? name = some t)
    (ht' : (w'.catalog.block n').export? name = some t') :
    w'.catalog.identifierOf t' = w.catalog.identifierOf t := by
  have hfind := congrArg (SortedMap.find? · name) h.exports
  simp only [find?_mapValues] at hfind
  rw [Block.export?] at ht ht'
  rw [ht, ht'] at hfind
  exact Option.some.inj hfind

theorem modifyBlock {f' : Block → Block}
    (hf : fixed (f (w.catalog.block n)) = fixed (w.catalog.block n))
    (hf' : fixed (f' (w'.catalog.block n')) = fixed (w'.catalog.block n'))
    (hp : (f' (w'.catalog.block n')).portrait w'.catalog.identifierOf
      = (f (w.catalog.block n)).portrait w.catalog.identifierOf) :
    Twins n n' (w.modifyBlock n f) (w'.modifyBlock n' f') := by
  have hblock : (w.modifyBlock n f).catalog.block n = f (w.catalog.block n) :=
    block_modifyBlock_self h.lt
  have hblock' : (w'.modifyBlock n' f').catalog.block n' = f' (w'.catalog.block n') :=
    block_modifyBlock_self h.lt'
  refine ⟨h.lt.trans_eq length_modifyBlock.symm, h.lt'.trans_eq length_modifyBlock.symm, ?_, ?_, ?_⟩
  · rw [hblock]
    exact (congrArg Prod.fst hf).trans h.number
  · rw [hblock']
    exact (congrArg Prod.fst hf').trans h.number'
  · exact (portrait_modifyBlock h.lt' (congrArg (·.2.1) hf')).trans
      (hp.trans (portrait_modifyBlock h.lt (congrArg (·.2.1) hf)).symm)

theorem of_objects {f' : Block → Block}
    (hf : ∃ l, f (w.catalog.block n) = { w.catalog.block n with objects := l })
    (hf' : ∃ l, f' (w'.catalog.block n') = { w'.catalog.block n' with objects := l })
    (ho : (f' (w'.catalog.block n')).objects = (f (w.catalog.block n)).objects) :
    Twins n n' (w.modifyBlock n f) (w'.modifyBlock n' f') := by
  obtain ⟨l, hl⟩ := hf
  obtain ⟨l', hl'⟩ := hf'
  rw [hl, hl'] at ho
  refine h.modifyBlock (by rw [hl]; rfl) (by rw [hl']; rfl) ?_
  obtain rfl : l' = l := ho
  rw [hl, hl']
  exact congrArg (fun p : Portrait => { p with objects := l' }) h.portrait

theorem of_editsOnly {v v' : Workspace} (hc : w.EditsOnly (fun b => (fixed b, b.drawn)) n v)
    (hc' : w'.EditsOnly (fun b => (fixed b, b.drawn)) n' v') : Twins n n' v v' := by
  have hportrait : ∀ {n : Nat} {w v : Workspace}, w.EditsOnly (fun b => (fixed b, b.drawn)) n v →
      v.catalog.portrait n = w.catalog.portrait n := by
    intro n w v hc
    have hfixed : w.EditsOnly fixed n v := { hc with kept := congrArg Prod.fst hc.kept }
    rw [Catalog.portrait, Catalog.portrait, hfixed.identifierOf_eq]
    exact Block.portrait_of_drawn_eq (congrArg Prod.snd hc.kept) _
  refine ⟨h.lt.trans_eq hc.length.symm, h.lt'.trans_eq hc'.length.symm, ?_, ?_, ?_⟩
  · exact (congrArg (·.1.1) hc.kept).trans h.number
  · exact (congrArg (·.1.1) hc'.kept).trans h.number'
  · rw [hportrait hc, hportrait hc', h.portrait]

end

theorem of_editsOnly_of_ne {v v' : Workspace} (h : Twins m m' w w') (hm : m ≠ n) (hm' : m' ≠ n')
    (hc : w.EditsOnly fixed n v) (hc' : w'.EditsOnly fixed n' v') : Twins m m' v v' := by
  refine ⟨h.lt.trans_eq hc.length.symm, h.lt'.trans_eq hc'.length.symm, ?_, ?_, ?_⟩
  · rw [hc.others m hm]
    exact h.number
  · rw [hc'.others m' hm']
    exact h.number'
  · rw [hc.portrait_eq hm, hc'.portrait_eq hm', h.portrait]

end Twins

end Workspace

end StyleBlocks
