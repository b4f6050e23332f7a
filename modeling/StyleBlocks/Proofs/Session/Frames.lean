import StyleBlocks.Proofs.Block.Objects
import StyleBlocks.Proofs.Steps
import StyleBlocks.Session.Reading

/-!
# What reading a block leaves alone

Apart from loading further blocks, reading a block changes the record of that block and nothing
else, and each phase changes only some parts of the record.  Both hold of failing steps too, and most
steps fail only because something is wrong with the file.
-/

namespace StyleBlocks

open Workspace LoadM

variable {f : Block → Block} {w w' : Workspace}

namespace Catalog

variable {g : Catalog} {m n : Nat}

theorem block_modifyBlock_self (h : n < g.blocks.length) :
    (g.modifyBlock n f).block n = f (g.block n) := by
  simp [block, modifyBlock, List.getElem?_eq_getElem h]

theorem block_modifyBlock_of_ne (h : m ≠ n) : (g.modifyBlock n f).block m = g.block m := by
  simp [block, modifyBlock, Ne.symm h]

theorem block_modifyBlock_of_le (h : g.blocks.length ≤ n) :
    (g.modifyBlock n f).block n = g.block n := by
  simp [block, modifyBlock, List.getElem?_eq_none h]

theorem length_modifyBlock : (g.modifyBlock n f).blocks.length = g.blocks.length := by
  simp [modifyBlock]

end Catalog

namespace BlockError

/-- The error says what is wrong with a file. -/
def isOrdinary : BlockError → Bool
  | .block (.cyclicBase _) _ => false
  | .noGuid _ => false
  | _ => true

@[simp] theorem isOrdinary_locate (e : BlockError) (place : Place) :
    (e.locate place).isOrdinary = e.isOrdinary := by
  unfold locate
  split
  · rename_i fault
    cases fault <;> rfl
  all_goals rfl

end BlockError

/-! ## One block -/

section

variable {γ : Type} {R : Workspace → Workspace → Prop}

/-- The number of the block that is started next. -/
abbrev Workspace.next (w : Workspace) : Nat :=
  w.catalog.blocks.length

/-- Of the blocks only `n` changes, and what `φ` shows of it stays the same.  Names stay taken. -/
structure Workspace.ChangesOnly (φ : Block → γ) (n : Nat) (w w' : Workspace) : Prop where
  owners : ∀ name owner, w.reservations.nameOwner? name = some owner →
    w'.reservations.nameOwner? name = some owner
  identifiers : w'.catalog.identifiers = w.catalog.identifiers
  length : w'.next = w.next
  others : ∀ m, m ≠ n → w'.catalog.block m = w.catalog.block m
  kept : φ (w'.catalog.block n) = φ (w.catalog.block n)

variable {φ : Block → γ} {n : Nat}

instance : Std.Refl (Workspace.ChangesOnly φ n) :=
  ⟨fun _ => ⟨fun _ _ h => h, rfl, rfl, fun _ _ => rfl, rfl⟩⟩

instance : IsTrans Workspace (Workspace.ChangesOnly φ n) :=
  ⟨fun _ _ _ h h' => ⟨fun name owner hw => h'.owners name owner (h.owners name owner hw),
    h'.identifiers.trans h.identifiers, h'.length.trans h.length,
    fun m hm => (h'.others m hm).trans (h.others m hm), h'.kept.trans h.kept⟩⟩

/-- Of the workspace only the block `n` changes, and what `φ` shows of it stays the same. -/
structure Workspace.EditsOnly (φ : Block → γ) (n : Nat) (w w' : Workspace) : Prop
    extends Workspace.ChangesOnly φ n w w' where
  reservations : w'.reservations = w.reservations

instance : Std.Refl (Workspace.EditsOnly φ n) :=
  ⟨fun w => ⟨Std.Refl.refl w, rfl⟩⟩

instance : IsTrans Workspace (Workspace.EditsOnly φ n) :=
  ⟨fun _ _ _ h h' => ⟨IsTrans.trans _ _ _ h.toChangesOnly h'.toChangesOnly,
    h'.reservations.trans h.reservations⟩⟩

theorem Leads.changesOnly {α : Type} {x : LoadM α} (h : Leads (EditsOnly φ n) x) :
    Leads (ChangesOnly φ n) x :=
  h.mono fun _ _ hc => hc.toChangesOnly

theorem Workspace.changesOnly_modifyBlock (w : Workspace)
    (hf : φ (f (w.catalog.block n)) = φ (w.catalog.block n)) :
    w.ChangesOnly φ n (w.modifyBlock n f) := by
  refine ⟨fun _ _ h => h, rfl, Catalog.length_modifyBlock,
    fun m hm => Catalog.block_modifyBlock_of_ne hm, ?_⟩
  rcases Nat.lt_or_ge n w.next with h | h
  · exact (congrArg φ (Catalog.block_modifyBlock_self h)).trans hf
  · exact congrArg φ (Catalog.block_modifyBlock_of_le h)

namespace LoadM

theorem leads_block [Std.Refl R] (n : Nat) : Leads R (LoadM.block n) :=
  fun w => Std.Refl.refl w

theorem leads_modifyBlock (hf : ∀ b, φ (f b) = φ b) :
    Leads (EditsOnly φ n) (LoadM.modifyBlock n f) :=
  fun w => ⟨w.changesOnly_modifyBlock (hf _), rfl⟩

theorem run_updateBlock (n : Nat) (place : Place) (f : Block → Except BlockError Block)
    (w : Workspace) : (LoadM.updateBlock n place f).run w = match f (w.catalog.block n) with
      | .ok b => (.ok (), w.modifyBlock n fun _ => b)
      | .error e => (.error (e.locate place), w) := by
  change (match f (w.catalog.block n) with
    | .ok b => LoadM.modifyBlock n fun _ => b
    | .error e => throw (e.locate place) : LoadM Unit).run w = _
  cases f (w.catalog.block n) <;> rfl

theorem updateBlock_eq_ok {place : Place} {f : Block → Except BlockError Block} {u : Unit}
    (h : (LoadM.updateBlock n place f).run w = (.ok u, w')) :
    ∃ b, f (w.catalog.block n) = .ok b ∧ w' = w.modifyBlock n fun _ => b := by
  rw [run_updateBlock] at h
  split at h
  · rename_i b hb
    exact ⟨b, hb, (Prod.mk.inj h).2.symm⟩
  · cases h

/-- What is known of a block that is edited: what `φ` shows of it stays the same, or the error says what
is wrong with a file. -/
def Edited (φ : Block → γ) (b : Block) : Except BlockError Block → Prop
  | .ok b' => φ b' = φ b
  | .error e => e.isOrdinary = true

/-- The states before and after the step are related, and it fails with ordinary errors only. -/
structure Ordinary {α : Type} (R : Workspace → Workspace → Prop) (x : LoadM α) : Prop where
  leads : Leads R x
  error : ∀ w e, (x.run w).1 = .error e → e.isOrdinary = true

namespace Ordinary

variable {α β : Type} {x : LoadM α} {f : α → LoadM β} {a : α}

theorem of_ok (h : Ordinary R x) (hx : x.run w = (.ok a, w')) : R w w' :=
  h.leads.of_ok hx

theorem of_leads (h : Leads R x) (hx : ∀ w, ∃ a, (x.run w).1 = .ok a) : Ordinary R x := by
  refine ⟨h, fun w e he => ?_⟩
  obtain ⟨a, ha⟩ := hx w
  rw [ha] at he
  cases he

theorem updateBlock {place : Place} {f : Block → Except BlockError Block}
    (hf : ∀ b, Edited φ b (f b)) : Ordinary (EditsOnly φ n) (LoadM.updateBlock n place f) := by
  refine ⟨fun w => ?_, fun w e he => ?_⟩
  · have h := hf (w.catalog.block n)
    rw [run_updateBlock]
    split
    · rename_i b hb
      rw [hb] at h
      exact ⟨w.changesOnly_modifyBlock h, rfl⟩
    · exact Std.Refl.refl w
  · have h := hf (w.catalog.block n)
    rw [run_updateBlock] at he
    split at he
    · cases he
    rename_i e' he'
    rw [he'] at h
    cases he
    exact (e'.isOrdinary_locate place).trans h

theorem bind [IsTrans Workspace R] (hx : Ordinary R x) (hf : ∀ a, Ordinary R (f a)) :
    Ordinary R (x >>= f) := by
  refine ⟨hx.leads.bind fun a => (hf a).leads, fun w e he => ?_⟩
  rw [run_bind] at he
  rcases hr : x.run w with ⟨e' | a, w₁⟩ <;> rw [hr] at he
  · cases he
    exact hx.error w e (congrArg Prod.fst hr)
  · exact (hf a).error w₁ e he

variable [Std.Refl R]

theorem pure (a : α) : Ordinary R (Pure.pure a : LoadM α) :=
  .of_leads (.pure a) fun _ => ⟨_, rfl⟩

theorem get : Ordinary R (MonadState.get : LoadM Workspace) :=
  .of_leads .get fun _ => ⟨_, rfl⟩

theorem block (n : Nat) : Ordinary R (LoadM.block n) :=
  .of_leads (leads_block n) fun _ => ⟨_, rfl⟩

theorem throw {e : BlockError} (he : e.isOrdinary = true) :
    Ordinary R (MonadExcept.throw e : LoadM α) := by
  refine ⟨.throw e, fun w e' h => ?_⟩
  cases h
  exact he

variable [IsTrans Workspace R] {l : List α}

theorem map (g : α → β) (hx : Ordinary R x) : Ordinary R (g <$> x) := by
  rw [map_eq_pure_bind]
  exact hx.bind fun _ => .pure _

theorem forM {f : α → LoadM PUnit} (hf : ∀ a, Ordinary R (f a)) : Ordinary R (l.forM f) := by
  induction l with
  | nil => exact .pure _
  | cons a l ih => exact (hf a).bind fun _ => ih

theorem mapM (hf : ∀ a, Ordinary R (f a)) : Ordinary R (l.mapM f) := by
  induction l with
  | nil => exact .pure _
  | cons a l ih =>
    rw [List.mapM_cons]
    exact (hf a).bind fun _ => ih.bind fun _ => .pure _

end Ordinary

end LoadM

namespace BlockReader

variable (r : BlockReader)

theorem ordinary_fail [Std.Refl R] {α : Type} {fault : BlockFault} (location : Location)
    (h : (BlockError.unplaced fault).isOrdinary = true) :
    Ordinary R (r.fail fault location : LoadM α) := by
  refine .throw ?_
  cases fault <;> first | rfl | cases h

theorem ordinary_reference [Std.Refl R] [IsTrans Workspace R] (name : String)
    (location : Location) : Ordinary R (r.reference name location) := by
  refine .bind (.block _) fun b => ?_
  split
  · exact .pure _
  · exact r.ordinary_fail _ rfl

theorem reference_eq_ok {r : BlockReader} {name : String} {location : Location} {t : Nat}
    (h : (r.reference name location).run w = (.ok t, w')) :
    w = w' ∧ (w.catalog.block r.number).reference? name = some t := by
  refine ⟨(r.ordinary_reference (R := Eq) _ _).of_ok h, ?_⟩
  unfold reference at h
  obtain ⟨b, w₁, hb, h⟩ := run_bind_ok h
  cases hb
  split at h
  · rename_i hfound
    cases h
    exact hfound
  · cases h

/-! ## References and exports -/

theorem ordinary_introduce (hφ : ∀ b m, φ { b with references := m } = φ b) (name : String)
    (target : Nat) (location : Location) :
    Ordinary (EditsOnly φ r.number) (r.introduce name target location) := by
  refine .updateBlock fun b => ?_
  unfold Block.introduce
  split
  · rfl
  · exact hφ _ _

theorem ordinary_importExport (hφ : ∀ b m, φ { b with references := m } = φ b) (origin : Nat)
    (path : String) (location : Location) (names : String × String) :
    Ordinary (EditsOnly φ r.number) (r.importExport origin path location names) := by
  refine .bind (.block _) fun b => ?_
  split
  · exact r.ordinary_introduce hφ _ _ _
  · exact r.ordinary_fail _ rfl

theorem ordinary_exported [Std.Refl R] [IsTrans Workspace R] (origin : Option (Nat × String))
    (name : String) (location : Location) : Ordinary R (r.exported origin name location) := by
  unfold exported
  split
  all_goals
    refine .bind (.block _) fun b => ?_
    split
    · exact .pure _
    · exact r.ordinary_fail _ rfl

theorem ordinary_offer (hφ : ∀ b m, φ { b with exports := m } = φ b)
    (origin : Option (Nat × String)) (location : Location) (names : String × String) :
    Ordinary (EditsOnly φ r.number) (r.offer origin location names) := by
  refine (r.ordinary_exported _ _ _).bind fun target => .updateBlock fun b => ?_
  unfold Block.offer
  split
  · rfl
  · split
    · rfl
    · exact hφ _ _

theorem ordinary_checkDebug [Std.Refl R] [IsTrans Workspace R] (h : AtHead) :
    Ordinary R (r.checkDebug h) := by
  unfold checkDebug
  split
  · split
    · rename_i fault hfault
      refine r.ordinary_fail _ ?_
      unfold DebugRequest.parse at hfault
      split at hfault
      · split at hfault
        · cases hfault
        · cases hfault
          rfl
      · cases hfault
        rfl
    · split
      · exact (r.ordinary_reference _ _).map _
      · exact .pure _
  · exact .pure _

/-! ## Declarations of the root -/

theorem ordinary_selectors [Std.Refl R] (rule : Rule) : Ordinary R (r.selectors rule) := by
  unfold selectors
  split
  · exact .pure _
  · exact r.ordinary_fail _ rfl

theorem ordinary_readName (hname : ∀ b s t, φ { b with name := s, nameIsSet := t } = φ b)
    (value : String) (location : Location) :
    Ordinary (EditsOnly φ r.number) (r.readName value location) := by
  unfold readName
  dsimp only
  split
  · refine .updateBlock fun b => ?_
    unfold Block.rename
    split
    · rfl
    · exact hname _ _ _
  · exact r.ordinary_fail _ rfl

theorem ordinary_readImplements (himplements : ∀ b l, φ { b with implements := l } = φ b)
    (value : String) (location : Location) :
    Ordinary (EditsOnly φ r.number) (r.readImplements value location) := by
  refine .forM fun piece => (r.ordinary_reference _ _).bind fun target => ?_
  refine .of_leads (leads_modifyBlock fun b => ?_) fun _ => ⟨_, rfl⟩
  unfold Block.promise
  split
  · rfl
  · exact himplements _ _

theorem leads_readBase (hbase : ∀ b x, φ { b with base := x } = φ b) (name : String)
    (location : Location) :
    Leads (EditsOnly φ r.number) (r.readBase name location) := by
  refine (r.ordinary_reference _ _).leads.bind fun base => Leads.get.bind fun w => ?_
  dsimp only
  split
  · exact .throw _
  · split
    · exact .throw _
    · exact leads_modifyBlock fun b => hbase b _

section

variable (hname : ∀ b s t, φ { b with name := s, nameIsSet := t } = φ b)
  (hbase : ∀ b x, φ { b with base := x } = φ b)
  (himplements : ∀ b l, φ { b with implements := l } = φ b)

include hname hbase himplements

theorem leads_readRootDeclaration (isRoot : Bool) (d : Declaration) :
    Leads (EditsOnly φ r.number) (r.readRootDeclaration isRoot d) := by
  unfold readRootDeclaration
  dsimp only
  split
  · split
    · exact (r.ordinary_readName hname _ _).leads
    · split
      · exact r.leads_readBase hbase _ _
      · exact (r.ordinary_readImplements himplements _ _).leads
  · exact .throw _

theorem leads_readRootDeclarations (rule : Rule) :
    Leads (EditsOnly φ r.number) (r.readRootDeclarations rule) := by
  unfold readRootDeclarations
  dsimp only
  split
  · exact (r.ordinary_selectors rule).leads.bind fun selectors => .forM fun d _ =>
      r.leads_readRootDeclaration hname hbase himplements _ d
  · exact .pure _

end

/-! ## Objects -/

theorem run_obtainState (first : ObjectId × Block) (state : StateName) (location : Location)
    (w : Workspace) :
    (match first.2.obtainState first.1 state.group state.name with
      | .ok (id, b) => do
        LoadM.modifyBlock r.number fun _ => b
        return id
      | .error e => throw (e.locate (r.place location)) : LoadM ObjectId).run
        (w.modifyBlock r.number fun _ => first.2) =
    let made : Except BlockError ObjectId × Block :=
      match first.2.obtainState first.1 state.group state.name with
      | .ok (id, b) => (.ok id, b)
      | .error e => (.error e, first.2)
    (made.1.mapError fun e => e.locate (r.place location),
      w.modifyBlock r.number fun _ => made.2) := by
  rcases first.2.obtainState first.1 state.group state.name with e | ⟨id, b⟩
  · rfl
  change (Except.ok id, (w.modifyBlock r.number fun _ => first.2).modifyBlock r.number
    fun _ => b) = _
  simp only [Workspace.modifyBlock, Catalog.modifyBlock, List.modify_modify_eq]
  rfl

theorem run_obtainObject (path : ObjectPath) (location : Location) (w : Workspace) :
    (r.obtainObject path location).run w =
      let made := (w.catalog.block r.number).obtainPath path
      (made.1.mapError fun e => e.locate (r.place location),
        w.modifyBlock r.number fun _ => made.2) := by
  obtain ⟨block, className, state⟩ := path
  cases className with
  | none =>
    cases state with
    | none => rfl
    | some state =>
      exact r.run_obtainState ((w.catalog.block r.number).root, w.catalog.block r.number) state
        location w
  | some name =>
    cases state with
    | none => rfl
    | some state =>
      exact r.run_obtainState ((w.catalog.block r.number).obtainClass name) state location w

theorem isOrdinary_of_obtainObject {path : ObjectPath} {location : Location} {w : Workspace}
    {e : BlockError} (h : ((r.obtainObject path location).run w).1 = .error e) :
    e.isOrdinary = true := by
  rw [run_obtainObject] at h
  dsimp only at h
  unfold Block.obtainPath at h
  dsimp only at h
  split at h
  · cases h
  split at h
  · cases h
  rename_i e' he'
  cases h
  rw [BlockError.isOrdinary_locate]
  unfold Block.obtainState at he'
  split at he'
  · cases he'
    rfl
  split at he'
  · cases he'
    rfl
  · split at he' <;> cases he'

theorem ordinary_checkGlobal [Std.Refl R] [IsTrans Workspace R] (path : ObjectPath)
    (location : Location) : Ordinary R (do
      let catalog := (← get).catalog
      match catalog.named? r.number path with
      | none => r.fail (.notFound path.render) location
      | some id =>
        if !(catalog.object? id).any StyleObject.isGlobal then
          r.fail (.notGlobal path.render) location : LoadM Unit) := by
  refine Ordinary.get.bind fun w => ?_
  dsimp only
  split
  · exact r.ordinary_fail _ rfl
  · split
    · exact r.ordinary_fail _ rfl
    · exact .pure _

theorem ordinary_checkForeign [Std.Refl R] [IsTrans Workspace R] (path : ObjectPath)
    (name : String) (isKey : Bool) (selector : Selector) (location : Location) :
    Ordinary R (r.checkForeign path name isKey selector location) := by
  have hend := r.ordinary_checkGlobal (R := R) path location
  unfold checkForeign
  dsimp only
  split
  on_goal 1 => refine (r.ordinary_fail _ rfl).bind fun _ => ?_
  all_goals
    refine ((r.ordinary_reference _ _).map _).bind fun _ => ?_
    split
    · exact (r.ordinary_fail _ rfl).bind fun _ => hend
    · exact hend

section

variable {R : Workspace → Workspace → Prop} [Std.Refl R] [IsTrans Workspace R]
  (hobtain : ∀ path location, Leads R (r.obtainObject path location))

include hobtain

theorem ordinary_readPath_of (selector : Selector) (isKey : Bool) (location : Location)
    (path : ObjectPath) : Ordinary R (match path.block with
      | some name => do
        r.checkForeign path name isKey selector location
        return none
      | none => return some (← r.obtainObject path location) : LoadM (Option ObjectId)) := by
  split
  · exact (r.ordinary_checkForeign _ _ _ _ _).bind fun _ => .pure _
  · exact .bind ⟨hobtain _ _, fun _ _ => r.isOrdinary_of_obtainObject⟩ fun _ => .pure _

theorem ordinary_readCompound_of (selector : Selector) (isKey : Bool) (location : Location)
    (compound : Compound) : Ordinary R (r.readCompound selector isKey location compound) := by
  unfold readCompound
  split
  · exact r.ordinary_fail _ rfl
  rename_i path rest _
  have hend := r.ordinary_readPath_of hobtain selector isKey location path
  dsimp only
  split
  · exact (r.ordinary_fail _ rfl).bind fun _ => hend
  · exact hend

theorem ordinary_readSelector_of (location : Location) (selector : Selector) :
    Ordinary R (r.readSelector location selector) :=
  .bind (.forM fun _ => (r.ordinary_readCompound_of hobtain _ _ _ _).map _) fun _ =>
    (r.ordinary_readCompound_of hobtain _ _ _ _).bind fun _ => .pure _

/-- **Reading a rule makes objects, adds declarations to them and makes them global.** -/
theorem ordinary_readRule_of
    (hcontribute : ∀ (keys : List (ObjectId × Option String)) (c : Contribution),
      Leads R (LoadM.modifyBlock r.number fun b =>
        keys.foldl (fun b key => b.contribute key.1 key.2 c) b))
    (hglobal : ∀ place id, Leads R (updateBlock r.number place (·.makeGlobal id)))
    (rule : Rule) : Ordinary R (r.readRule rule) := by
  have hmakeGlobal : ∀ id b, Edited (fun _ => ()) b (b.makeGlobal id) := by
    intro id b
    unfold Block.makeGlobal
    split
    · split <;> rfl
    · rfl
  have hreadGlobal : ∀ keys d, Ordinary R (r.readGlobal keys d) := by
    intro keys d
    unfold readGlobal
    split
    · exact .forM fun key => ⟨hglobal _ _, (Ordinary.updateBlock (hmakeGlobal _)).error⟩
    · exact .pure _
    · exact r.ordinary_fail _ rfl
  unfold readRule
  refine (r.ordinary_selectors rule).bind fun selectors =>
    (Ordinary.mapM fun s => r.ordinary_readSelector_of hobtain _ s).bind fun found => ?_
  dsimp only
  split
  · exact .bind (.of_leads (hcontribute _ _) fun _ => ⟨_, rfl⟩) fun _ =>
      .forM fun d => hreadGlobal _ d
  · exact .forM fun d => hreadGlobal _ d

end

section

variable (hφ : ∀ b l, φ { b with objects := l } = φ b)

include hφ

theorem leads_obtainObject (path : ObjectPath) (location : Location) :
    Leads (EditsOnly φ r.number) (r.obtainObject path location) := by
  intro w
  rw [run_obtainObject]
  obtain ⟨l, hl⟩ := (w.catalog.block r.number).exists_objects_obtainPath path
  exact ⟨w.changesOnly_modifyBlock (by rw [hl, hφ]), rfl⟩

theorem ordinary_readRule (rule : Rule) : Ordinary (EditsOnly φ r.number) (r.readRule rule) := by
  refine r.ordinary_readRule_of (r.leads_obtainObject hφ)
    (fun keys c => leads_modifyBlock fun b => by
      obtain ⟨l, hl⟩ := b.exists_objects_contribute keys c
      rw [hl, hφ])
    (fun place id => (Ordinary.updateBlock fun b => ?_).leads) rule
  unfold Block.makeGlobal
  split
  · split
    · exact hφ _ _
    · rfl
  · rfl

end

theorem ordinary_checkImplementations (hφ : ∀ b l, φ { b with errors := l } = φ b)
    (faultTolerant : Bool) :
    Ordinary (EditsOnly φ r.number) (r.checkImplementations faultTolerant) := by
  refine Ordinary.get.bind fun w => ?_
  dsimp only
  split
  · split
    · exact .of_leads (leads_modifyBlock fun b => hφ b _) fun _ => ⟨_, rfl⟩
    · exact .throw rfl
  · exact .pure _

end BlockReader

end

end StyleBlocks
