import StyleBlocks.Proofs.Catalog.Grounded
import StyleBlocks.Proofs.Session.Objects

/-!
# Sound workspaces

The stylesheet is the last thing that a block gets.  A complete block is never changed again, and
all it links to is complete.
-/

namespace StyleBlocks

open Catalog

variable {P : Nat → Prop} {m : Nat} {t x y : ObjectId} {loading : List String}

namespace Catalog

variable {g g' : Catalog} {n : Nat}

/-- The record of a block that was read from the stylesheet. -/
structure SoundAt (g : Catalog) (n : Nat) (sheet : Stylesheet) : Prop where
  name : isIdentifier (g.block n).name = true
  guid : (g.block n).guid ≠ ""
  exportsSelf : ∀ m, (selfExport, m) ∈ (g.block n).exports.entries → m = n
  grounded : g.Grounded n
  canDebug : ∀ head ∈ sheet.nodes.filterMap BlockReader.head?, head.name = "block-debug" →
    (g.block n).CanDebug head
  readsRules : ∀ r ∈ sheet.rules, g.ReadsRule n r
  reflects : ∃ file, (g.block n).Reflects file sheet.rules

theorem SoundAt.keep {sheet : Stylesheet} (hs : g.SoundAt n sheet) (h : g.KeepsComplete g') :
    g'.SoundAt n sheet := by
  have hn := h n hs.grounded.isComplete
  have hview : g.KeepsView g' n := ⟨h, by rw [hn], by rw [hn]; exact fun _ _ hf => hf⟩
  refine ⟨?_, ?_, ?_, hs.grounded.keep h, ?_, fun r hr => (hs.readsRules r hr).keep hview, ?_⟩
  all_goals rw [hn]
  · exact hs.name
  · exact hs.guid
  · exact hs.exportsSelf
  · exact hs.canDebug
  · exact hs.reflects

/-- An object of a loaded block. -/
structure Holds (g : Catalog) (x : ObjectId) : Prop where
  isComplete : (g.block x.block).IsComplete
  lt : x.index < (g.block x.block).objects.length

end Catalog

namespace Workspace

/-- The workspace while the files of `loading` are being loaded. -/
structure Sound (loading : List String) (w : Workspace) : Prop where
  number : ∀ m < w.next, (w.catalog.block m).number = m
  known : ∀ k m, w.catalog.byIdentifier? k = some m → (w.catalog.block m).identifier = k ∧
    m < w.next ∧ (k ∈ loading ∨ (w.catalog.block m).IsComplete)
  listed : ∀ m, (w.catalog.block m).IsComplete →
    w.catalog.byIdentifier? (w.catalog.block m).identifier = some m
  owner : ∀ m, (w.catalog.block m).IsComplete →
    w.reservations.nameOwner? (w.catalog.block m).name = some (w.catalog.block m).identifier
  soundAt : ∀ m sheet, (w.catalog.block m).stylesheet = some sheet → w.catalog.SoundAt m sheet

/-- Blocks are added, those with `P` stay as they are, and so do the identifiers of the files that
are being loaded. -/
structure Grows (P : Nat → Prop) (loading : List String) (w w' : Workspace) : Prop where
  length_le : w.next ≤ w'.next
  block_eq : ∀ m < w.next, P m → w'.catalog.block m = w.catalog.block m
  identifiers : ∀ k ∈ loading, w'.catalog.byIdentifier? k = w.catalog.byIdentifier? k

theorem Grows.refl (w : Workspace) : w.Grows P loading w :=
  ⟨Nat.le_refl _, fun _ _ _ => rfl, fun _ _ => rfl⟩

theorem Grows.trans {w w' w'' : Workspace} (h : w.Grows P loading w')
    (h' : w'.Grows P loading w'') : w.Grows P loading w'' :=
  ⟨h.length_le.trans h'.length_le,
    fun m hm hP => (h'.block_eq m (hm.trans_le h.length_le) hP).trans (h.block_eq m hm hP),
    fun k hk => (h'.identifiers k hk).trans (h.identifiers k hk)⟩

theorem Grows.weaken {Q : Nat → Prop} {w w' : Workspace} (h : w.Grows P loading w')
    (hQ : ∀ m, Q m → P m) : w.Grows Q loading w' :=
  ⟨h.length_le, fun m hm hm' => h.block_eq m hm (hQ m hm'), h.identifiers⟩

/-- The block `n` of the file `k` is being read, since the workspace was `w₀`. -/
structure Open (loading : List String) (k : String) (n : Nat) (w₀ w : Workspace) : Prop where
  sound : w.Sound loading
  grows : w₀.Grows (· ≠ n) loading w
  lt : n < w.next
  listed : w.catalog.byIdentifier? k = some n
  identifier : (w.catalog.block n).identifier = k
  incomplete : (w.catalog.block n).stylesheet = none

/-- What no step of reading changes. -/
def fixed (b : Block) : Nat × String × Option Stylesheet :=
  (b.number, b.identifier, b.stylesheet)

section

variable {k : String} {n : Nat} {w₀ w w' : Workspace}

namespace Open

theorem ne_of_isComplete (h : Open loading k n w₀ w) (hm : (w.catalog.block m).IsComplete) :
    m ≠ n := by
  rintro rfl
  rw [Block.IsComplete, h.incomplete] at hm
  cases hm

theorem keepsComplete {γ : Type} {φ : Block → γ} (h : Open loading k n w₀ w)
    (hc : w.ChangesOnly φ n w') : w.catalog.KeepsComplete w'.catalog :=
  fun m hm => hc.others m (h.ne_of_isComplete hm)

theorem of_changesOnly (h : Open loading k n w₀ w) (hc : w.ChangesOnly fixed n w') :
    Open loading k n w₀ w' := by
  obtain ⟨hnumber, hidentifier, hstylesheet⟩ :
      (w'.catalog.block n).number = (w.catalog.block n).number ∧
      (w'.catalog.block n).identifier = (w.catalog.block n).identifier ∧
      (w'.catalog.block n).stylesheet = (w.catalog.block n).stylesheet := by
    simpa [fixed] using hc.kept
  have hby : ∀ k, w'.catalog.byIdentifier? k = w.catalog.byIdentifier? k := fun k => by
    rw [byIdentifier?, byIdentifier?, hc.identifiers]
  have hkeep := h.keepsComplete hc
  -- no block becomes complete
  have hback : ∀ m, (w'.catalog.block m).IsComplete → (w.catalog.block m).IsComplete := by
    intro m hm
    by_cases hmn : m = n
    · subst hmn
      rwa [Block.IsComplete, hstylesheet] at hm
    · rwa [hc.others m hmn] at hm
  refine ⟨⟨?_, ?_, ?_, ?_, ?_⟩, ⟨?_, ?_, ?_⟩, ?_, ?_, ?_, ?_⟩
  · intro m hm
    rw [hc.length] at hm
    by_cases hmn : m = n
    · rw [hmn, hnumber]
      exact h.sound.number n (hmn ▸ hm)
    · rw [hc.others m hmn]
      exact h.sound.number m hm
  · intro k' m hk'
    rw [hby] at hk'
    obtain ⟨hid, hlt, hor⟩ := h.sound.known k' m hk'
    refine ⟨?_, hc.length ▸ hlt, hor.imp_right hkeep.isComplete⟩
    by_cases hmn : m = n
    · rw [hmn, hidentifier, ← hmn]
      exact hid
    · rw [hc.others m hmn]
      exact hid
  · intro m hm
    rw [hby, hkeep m (hback m hm)]
    exact h.sound.listed m (hback m hm)
  · intro m hm
    rw [hkeep m (hback m hm)]
    exact hc.owners _ _ (h.sound.owner m (hback m hm))
  · intro m sheet hm
    have hm' : (w.catalog.block m).IsComplete :=
      hback m (Block.isComplete_of_stylesheet hm)
    rw [hkeep m hm'] at hm
    exact (h.sound.soundAt m sheet hm).keep hkeep
  · exact h.grows.length_le.trans_eq hc.length.symm
  · intro m hm hmn
    rw [hc.others m hmn]
    exact h.grows.block_eq m hm hmn
  · intro k' hk'
    rw [hby]
    exact h.grows.identifiers k' hk'
  · exact h.lt.trans_eq hc.length.symm
  · rw [hby]
    exact h.listed
  · rw [hidentifier]
    exact h.identifier
  · rw [hstylesheet]
    exact h.incomplete

theorem of_grows (h : Open loading k n w₀ w) (hk : k ∈ loading) (hw : w'.Sound loading)
    (hg : w.Grows (fun _ => True) loading w') : Open loading k n w₀ w' := by
  have hn := hg.block_eq n h.lt trivial
  refine ⟨hw, h.grows.trans (hg.weaken fun _ _ => trivial), h.lt.trans_le hg.length_le, ?_, ?_, ?_⟩
  · rw [hg.identifiers k hk]
    exact h.listed
  · rw [hn]
    exact h.identifier
  · rw [hn]
    exact h.incomplete

end Open

end

/-! ## Complete blocks -/

namespace Sound

variable {w : Workspace} {n : Nat} (h : w.Sound loading)

include h

section

variable (hn : (w.catalog.block n).IsComplete)

include hn

theorem orderly : w.catalog.Orderly n := by
  obtain ⟨sheet, hsheet⟩ := Option.isSome_iff_exists.1 hn
  obtain ⟨file, hreflects⟩ := (h.soundAt n sheet hsheet).reflects
  have hlt := lt_of_isComplete hn
  exact ⟨hlt, h.number n hlt, hreflects.wellFormed⟩

theorem namesReadable : (w.catalog.block n).NamesReadable := by
  obtain ⟨sheet, hsheet⟩ := Option.isSome_iff_exists.1 hn
  obtain ⟨file, hreflects⟩ := (h.soundAt n sheet hsheet).reflects
  exact hreflects.namesReadable

theorem grounded : w.catalog.Grounded n := by
  obtain ⟨sheet, hsheet⟩ := Option.isSome_iff_exists.1 hn
  exact (h.soundAt n sheet hsheet).grounded

theorem chain : w.catalog.Chain n (w.catalog.ancestors n) ∧
      ∀ m ∈ w.catalog.ancestors n, (w.catalog.block m).IsComplete := by
  obtain ⟨l, hchain, hl⟩ := (h.grounded hn).chain
  rw [hchain.ancestors_eq fun m hm => lt_of_isComplete (hl m hm)]
  exact ⟨hchain, hl⟩

theorem isComplete_of_mem (hm : m ∈ n :: w.catalog.ancestors n) : (w.catalog.block m).IsComplete := by
  rcases List.mem_cons.1 hm with rfl | hm
  · exact hn
  · exact (h.chain hn).2 m hm

theorem eq_of_name (hm : (w.catalog.block m).IsComplete)
    (hname : (w.catalog.block n).name = (w.catalog.block m).name) : n = m := by
  have howner := h.owner n hn
  rw [hname, h.owner m hm] at howner
  have hlisted := h.listed n hn
  rw [← Option.some.inj howner, h.listed m hm] at hlisted
  exact (Option.some.inj hlisted).symm

end

theorem overridden (hx : (w.catalog.block x.block).IsComplete)
    (ht : w.catalog.overridden? x = some t) :
    t.block ∈ w.catalog.ancestors x.block ∧ t.index < (w.catalog.block t.block).objects.length ∧
      w.catalog.pathTo t = w.catalog.pathTo x := by
  obtain ⟨m, hm, hfind⟩ := List.exists_of_findSome?_eq_some ht
  obtain ⟨rfl, hi, hpath⟩ :=
    (h.orderly ((h.chain hx).2 m hm)).find? hfind (Block.block_pathTo x.index)
  exact ⟨hm, hi, hpath⟩

theorem lineage_eq (hx : w.catalog.Holds x) : w.catalog.lineage x
      = w.catalog.objectsWith (w.catalog.pathTo x) (x.block :: w.catalog.ancestors x.block) := by
  obtain ⟨hchain, hcomplete⟩ := h.chain hx.isComplete
  have horderly := h.orderly hx.isComplete
  have hown : (w.catalog.block x.block).find? (w.catalog.pathTo x) = some x := by
    have := horderly.wellFormed.find x.index hx.lt
    rwa [horderly.number] at this
  rw [hchain.lineage_eq (fun m hm => h.orderly (hcomplete m hm)) rfl, objectsWith,
    objectsWith, List.filterMap_cons, hown]

theorem lineage_eq_of_overridden (hx : (w.catalog.block x.block).IsComplete)
    (ht : w.catalog.overridden? x = some t) : w.catalog.lineage x = x :: w.catalog.lineage t := by
  obtain ⟨hchain, hcomplete⟩ := h.chain hx
  obtain ⟨hblock, hi, hpath⟩ := h.overridden hx ht
  obtain ⟨l₁, m, l₂, hl, hfind, hnone⟩ := List.findSome?_eq_some_iff.1 ht
  have hm : m ∈ w.catalog.ancestors x.block := by simp [hl]
  obtain ⟨rfl, -, -⟩ := (h.orderly (hcomplete m hm)).find? hfind (Block.block_pathTo x.index)
  have hrest : w.catalog.ancestors t.block = l₂ :=
    (h.chain (hcomplete _ hm)).1.unique (Chain.of_append (hl ▸ hchain))
  rw [hchain.lineage_eq (fun m hm => h.orderly (hcomplete m hm)) rfl,
    h.lineage_eq ⟨hcomplete _ hm, hi⟩, hrest, hpath, hl, objectsWith, List.filterMap_append,
    List.filterMap_eq_nil_iff.2 hnone]
  rfl

theorem mem_lineage (hx : w.catalog.Holds x) :
    y ∈ w.catalog.lineage x ↔ y.block ∈ x.block :: w.catalog.ancestors x.block ∧
      (w.catalog.block y.block).find? (w.catalog.pathTo x) = some y := by
  rw [h.lineage_eq hx, objectsWith, List.mem_filterMap]
  constructor
  · rintro ⟨m, hm, hfind⟩
    obtain ⟨rfl, -, -⟩ := (h.orderly (h.isComplete_of_mem hx.isComplete hm)).find? hfind
      (Block.block_pathTo x.index)
    exact ⟨hm, hfind⟩
  · rintro ⟨hm, hfind⟩
    exact ⟨_, hm, hfind⟩

theorem of_mem_lineage (hx : w.catalog.Holds x) (hy : y ∈ w.catalog.lineage x) :
    w.catalog.Holds y ∧ w.catalog.pathTo y = w.catalog.pathTo x := by
  obtain ⟨hm, hfind⟩ := (h.mem_lineage hx).1 hy
  have hcomplete := h.isComplete_of_mem hx.isComplete hm
  obtain ⟨-, hlt, hpath⟩ := (h.orderly hcomplete).find? hfind (Block.block_pathTo x.index)
  exact ⟨⟨hcomplete, hlt⟩, hpath⟩

end Sound

end Workspace

end StyleBlocks
