import StyleBlocks.Proofs.Clash
import StyleBlocks.Proofs.Session.Loading

/-!
# The order of the pseudo-elements

What the rules say about an object is kept apart by pseudo-element, and the pseudo-elements are kept in
increasing order.  This holds of every block at any time, also of one whose loading fails.
-/

namespace StyleBlocks

/-! ## One block -/

namespace Block

variable {b b' : Block}

/-- The pseudo-elements of all objects are in order. -/
protected def Ascends (b : Block) : Prop :=
  ∀ s ∈ b.objects, s.contributions.Ascends

theorem ascends_new (number : Nat) (identifier name : String) :
    (Block.new number identifier name).Ascends := by
  intro s hs
  rw [List.mem_singleton.1 hs]
  exact Contributions.ascends_empty

namespace Ascends

theorem append (h : b.Ascends) (name : String) (kind : ObjectKind) :
    (b.append (.new name kind)).2.Ascends := by
  intro s hs
  rcases List.mem_append.1 hs with hs | hs
  · exact h s hs
  · rw [List.mem_singleton.1 hs]
    exact Contributions.ascends_empty

theorem modifyObject (h : b.Ascends) (index : Nat) {f : StyleObject → StyleObject}
    (hf : ∀ s, s.contributions.Ascends → (f s).contributions.Ascends) :
    (b.modifyObject index f).Ascends := by
  intro s hs
  obtain ⟨i, hi⟩ := List.getElem?_of_mem hs
  rw [getElem?_modifyObject] at hi
  obtain ⟨t, ht, rfl⟩ := Option.map_eq_some_iff.1 hi
  have ht := h t (List.mem_of_getElem? ht)
  split
  · exact hf t ht
  · exact ht

theorem obtainPath (h : b.Ascends) (path : ObjectPath) : (b.obtainPath path).2.Ascends := by
  have howner : (b.obtainOwner path).2.Ascends := by
    unfold obtainOwner obtainClass
    split
    · split
      · exact h
      · exact h.append _ _
    · exact h
  unfold Block.obtainPath
  dsimp only
  split
  · exact howner
  split
  · rename_i heq
    rcases obtainState_ok heq with ⟨rfl, -⟩ | ⟨rfl, -⟩
    · exact howner
    · exact (howner.append _ _).modifyObject _ fun s hs => hs
  · exact howner

theorem contribute (h : b.Ascends) (id : ObjectId) (pseudo : Option String) (c : Contribution) :
    (b.contribute id pseudo c).Ascends := by
  unfold Block.contribute
  split
  · exact h.modifyObject _ fun s hs => hs.add pseudo c
  · exact h

theorem makeGlobal (h : b.Ascends) {id : ObjectId} (hb : b.makeGlobal id = .ok b') :
    b'.Ascends := by
  obtain ⟨_, _, _, _, -, -, rfl⟩ := exists_of_makeGlobal hb
  exact h.modifyObject _ fun s hs => hs

end Ascends

end Block

/-! ## All blocks -/

namespace Workspace

variable {n : Nat} {w w' : Workspace}

/-- The pseudo-elements of all objects of all blocks are in order. -/
protected def Ascends (w : Workspace) : Prop :=
  ∀ m, (w.catalog.block m).Ascends

namespace Ascends

theorem modifyBlock (h : w.Ascends) {f : Block → Block}
    (hf : (w.catalog.block n).Ascends → (f (w.catalog.block n)).Ascends) :
    (w.modifyBlock n f).Ascends := by
  intro m
  change ((w.catalog.modifyBlock n f).block m).Ascends
  by_cases hm : m = n
  · subst hm
    rcases Nat.lt_or_ge m w.next with hlt | hle
    · rw [Catalog.block_modifyBlock_self hlt]
      exact hf (h m)
    · rw [Catalog.block_modifyBlock_of_le hle]
      exact h m
  · rw [Catalog.block_modifyBlock_of_ne hm]
    exact h m

theorem of_changesOnly (h : w.Ascends) (hc : w.ChangesOnly BlockReader.besidesRules n w') :
    w'.Ascends := by
  intro m
  by_cases hm : m = n
  · subst hm
    unfold Block.Ascends
    rw [show (w'.catalog.block m).objects = _ from congrArg Prod.snd hc.kept]
    exact h m
  · rw [hc.others m hm]
    exact h m

theorem start (h : w.Ascends) (k : String) : (w.start k).Ascends := by
  intro m
  rw [block_start]
  split
  · exact Block.ascends_new _ _ _
  · exact h m

end Ascends

end Workspace

namespace BlockReader

variable (r : BlockReader)

theorem ascends_readRule (rule : Rule) : Leads (Keeps Workspace.Ascends) (r.readRule rule) := by
  refine (r.ordinary_readRule_of ?_ ?_ ?_ rule).leads
  · intro path location w hw
    rw [run_obtainObject]
    exact hw.modifyBlock fun hb => hb.obtainPath path
  · intro keys c w hw
    refine hw.modifyBlock fun hb => ?_
    generalize w.catalog.block r.number = b at hb
    induction keys generalizing b with
    | nil => exact hb
    | cons key keys ih => exact ih _ (hb.contribute key.1 key.2 c)
  · intro place id w hw
    rw [LoadM.run_updateBlock]
    split
    · rename_i b hb
      exact hw.modifyBlock fun h => h.makeGlobal hb
    · exact hw

end BlockReader

/-- **Loading keeps the order**, whether it fails or not. -/
theorem Library.ascends_load (lib : Library) (loading : List String) (k : String) :
    Leads (Keeps Workspace.Ascends) (lib.load loading k) := by
  -- filling reads rules, loads, and changes the block in ways that leave the objects alone
  have hfill : ∀ (w : Workspace) (k : String) (load : LoadStep) (sheet : Stylesheet)
      (deps : List String), (∀ path, Leads (Keeps Workspace.Ascends) (load path)) →
      w.Ascends → (lib.fillNew w k load sheet deps).2.Ascends :=
    fun w k load sheet deps hload hw => lib.leads_fill_by k (fun _ _ hc hw => hw.of_changesOnly hc)
      (BlockReader.ascends_readRule _) hload sheet deps _ (hw.start k)
  intro w
  refine load_induct (Q := fun _ _ w out => w.Ascends → out.2.Ascends) ?_ ?_ ?_ ?_ ?_ ?_ loading k w
  · exact fun _ _ _ _ hw => hw
  · exact fun _ _ _ _ _ _ hw => hw
  · exact fun _ _ _ _ _ _ _ hw => hw
  · exact fun _ _ _ _ _ _ _ _ _ hw => hw
  · intro loading k w file sheet deps e w' _ _ _ _ ih hrun hw
    have := hfill w k _ sheet deps ih hw
    rwa [hrun] at this
  · intro loading k w file sheet deps w' _ _ _ _ ih hrun hw
    have := hfill w k _ sheet deps ih hw
    rw [hrun] at this
    exact this.modifyBlock fun hb => hb

theorem Session.Reachable.ascends {s : Session} (h : s.Reachable) : s.workspace.Ascends := by
  refine h.workspace_induct (P := fun _ w => w.Ascends) (fun _ m => ?_)
    fun _ _ _ _ => Library.ascends_load _ _ _ _
  cases m <;> exact Block.ascends_new _ _ _

end StyleBlocks
