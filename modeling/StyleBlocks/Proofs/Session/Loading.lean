import StyleBlocks.Proofs.Guids
import StyleBlocks.Proofs.Reservations
import StyleBlocks.Proofs.Session.Reading
import StyleBlocks.Session.Loading

/-!
# Loading keeps a workspace sound

Files are loaded inside each other.  Whether a file's loading fails or not, the workspace is sound
again once it has ended: the file's block is complete then, or can no longer be asked for.

* `Session.Reachable.sound`: **the workspace of every such session is sound.**
-/

namespace StyleBlocks

open Catalog List BlockReader

variable {m : Nat} {name : String} {u : Unit}

/-! ## The name of a block -/

namespace Library

variable {γ : Type} {φ : Block → γ} {lib : Library} {n : Nat} {k : String} {w w' : Workspace}

theorem changesOnly_reservations {r : Reservations}
    (h : ∀ name owner, w.reservations.nameOwner? name = some owner →
      r.nameOwner? name = some owner) :
    w.ChangesOnly φ n { w with reservations := r } :=
  ⟨h, rfl, rfl, fun _ _ => rfl, rfl⟩

section

variable (hname : ∀ b s, φ { b with name := s } = φ b) (hguid : ∀ b s, φ { b with guid := s } = φ b)
  (herrors : ∀ b guid file owner, φ (b.keepError (.duplicateGuid guid file owner)) = φ b)

include hguid herrors

theorem leads_identify : Leads (Workspace.ChangesOnly φ n) (lib.identify n k) := by
  intro w
  refine Leads.bind_run (Std.Refl.refl w) fun w₁ w₂ hget => ?_
  cases hget
  split
  · exact Std.Refl.refl w
  rename_i guid collision reservations hreserve
  refine Leads.bind_run (changesOnly_reservations fun name owner ho => ?_) fun _ _ hmodify => ?_
  · rw [Reservations.nameOwner?_reserveGuid hreserve]
    exact ho
  refine (LoadM.leads_modifyBlock fun b => hguid b guid).changesOnly.bind (fun _ => ?_) _
  split
  · exact .pure _
  · obtain ⟨_, _, rfl⟩ := Reservations.eq_duplicateGuid_of_reserveGuid hreserve
    split
    · exact (LoadM.leads_modifyBlock fun b => herrors b _ _ _).changesOnly
    · exact .throw _

include hname

theorem leads_register : Leads (Workspace.ChangesOnly φ n) (lib.register n k) := by
  have hlast : ∀ name unique : String, Leads (Workspace.ChangesOnly φ n) (do
      if unique != name then LoadM.modifyBlock n fun b => { b with name := unique }
      lib.identify n k : LoadM Unit) := by
    intro name unique
    split
    · exact (LoadM.leads_modifyBlock fun b => hname b unique).changesOnly.bind fun _ =>
        leads_identify hguid herrors
    · exact leads_identify hguid herrors
  refine (LoadM.leads_block n).bind fun b => ?_
  intro w
  dsimp only
  split
  · exact Std.Refl.refl w
  refine Leads.bind_run (Std.Refl.refl w) fun w₁ w₂ hget => ?_
  cases hget
  refine Leads.bind_run (Std.Refl.refl w) fun reserved w₂ hreserve => ?_
  obtain ⟨hreserved, rfl⟩ := Prod.mk.inj hreserve
  obtain ⟨-, howners, -⟩ := Reservations.reserveName_ok hreserved
  exact Leads.bind_run (changesOnly_reservations howners) fun _ w₂ _ => hlast _ _ w₂

end

theorem identify_eq_ok (h : (lib.identify n k).run w = (.ok u, w')) : ∃ guid collision,
    w.reservations.reserveGuid k = some (guid, collision, w'.reservations) ∧
      (n < w.next → (w'.catalog.block n).guid = guid) := by
  obtain ⟨w₁, w₂, hget, h⟩ := run_bind_ok h
  cases hget
  split at h
  · cases h
  rename_i guid collision reservations hreserve
  obtain ⟨_, w₁, hreserved, h⟩ := run_bind_ok h
  cases hreserved
  obtain ⟨_, w₁, hmodify, h⟩ := run_bind_ok h
  cases hmodify
  have hguid : n < w.next → (({ w with reservations := reservations }.modifyBlock n
      fun b => { b with guid := guid }).catalog.block n).guid = guid :=
    fun hlt => congrArg Block.guid (block_modifyBlock_self hlt)
  split at h
  · cases h
    exact ⟨guid, _, hreserve, hguid⟩
  split at h
  · cases h
    exact ⟨guid, _, hreserve, fun hlt => (Workspace.changesOnly_modifyBlock (φ := Block.guid)
      (n := n) _ (f := (·.keepError ‹_›)) rfl).kept.trans (hguid hlt)⟩
  · cases h

theorem register_eq_ok (hlt : n < w.next)
    (h : (lib.register n k).run w = (.ok u, w')) :
    isIdentifier (w.catalog.block n).name = true ∧ ∃ unique w₁,
      w.reservations.reserveName (w.catalog.block n).name k = .ok (unique, w₁.reservations) ∧
      n < w₁.next ∧ (w₁.catalog.block n).name = unique ∧
      (lib.identify n k).run w₁ = (.ok u, w') := by
  obtain ⟨b, w₁, hb, h⟩ := run_bind_ok h
  cases hb
  dsimp only at h
  split at h
  · obtain ⟨_, _, hthrow, -⟩ := run_bind_ok h
    cases hthrow
  rename_i hname
  obtain ⟨w₁, w₂, hget, h⟩ := run_bind_ok h
  cases hget
  obtain ⟨⟨unique, reservations⟩, w₁, hreserve, h⟩ := run_bind_ok h
  obtain ⟨hreserved, rfl⟩ := Prod.mk.inj hreserve
  obtain ⟨_, w₁, hmodify, h⟩ := run_bind_ok h
  cases hmodify
  refine ⟨by simpa using hname, unique, ?_⟩
  split at h
  · obtain ⟨_, w₁, hmodify, h⟩ := run_bind_ok h
    cases hmodify
    exact ⟨_, hreserved, hlt.trans_eq length_modifyBlock.symm,
      congrArg Block.name (block_modifyBlock_self hlt), h⟩
  · rename_i heq
    have heq : unique = (w.catalog.block n).name := by simpa using heq
    exact ⟨{ w with reservations := reservations }, hreserved, hlt, heq.symm, h⟩

theorem register_ok (hlt : n < w.next)
    (h : (lib.register n k).run w = (.ok u, w')) :
    isIdentifier (w'.catalog.block n).name = true ∧
      w'.reservations.nameOwner? (w'.catalog.block n).name = some k ∧
      (w'.catalog.block n).guid ≠ "" := by
  obtain ⟨hname, unique, w₁, hreserved, hlt₁, hname₁, h⟩ := register_eq_ok hlt h
  obtain ⟨howner, -, hunique⟩ := Reservations.reserveName_ok hreserved
  -- the GUID leaves the name alone
  have hc := (leads_identify (φ := Block.name) (fun _ _ => rfl) fun _ _ _ _ => rfl).of_ok h
  obtain ⟨guid, collision, hreserve, hguid⟩ := identify_eq_ok h
  rw [hc.kept, hname₁, hguid hlt₁]
  exact ⟨hunique hname, hc.owners _ _ howner, Reservations.reserveGuid_ne_empty hreserve⟩

end Library

/-! ## Files -/

namespace Catalog

variable {g : Catalog} {k k' : String}

theorem byIdentifier?_retract :
    (g.retract k).byIdentifier? k' = if k' = k then none else g.byIdentifier? k' := by
  unfold byIdentifier? retract
  induction g.identifiers with
  | nil => simp
  | cons e l ih =>
    obtain ⟨k₁, m⟩ := e
    by_cases h₁ : k₁ = k
    · rw [filter_cons_of_neg (by simp [h₁]), ih, lookup_cons]
      by_cases h : k' = k
      · rw [if_pos h, if_pos h]
      · rw [if_neg h, if_neg h, beq_false_of_ne (h₁ ▸ h)]
    rw [filter_cons_of_pos (by simpa using h₁), lookup_cons, lookup_cons, ih]
    by_cases h : k' = k₁
    · rw [h, beq_self_eq_true]
      exact (if_neg h₁).symm
    · rw [beq_false_of_ne h]

theorem byIdentifier?_startBlock :
    (g.startBlock k name).2.byIdentifier? k'
      = if k' = k then some g.blocks.length else g.byIdentifier? k' := by
  change ((k, g.blocks.length) :: (g.retract k).identifiers).lookup k' = _
  rw [lookup_cons]
  by_cases h : k' = k
  · rw [h, beq_self_eq_true, if_pos rfl]
  · rw [beq_false_of_ne h, if_neg h]
    exact byIdentifier?_retract.trans (if_neg h)

theorem block_startBlock :
    (g.startBlock k name).2.block m
      = if m = g.blocks.length then .new g.blocks.length k name else g.block m := by
  change (g.blocks ++ [.new g.blocks.length k name])[m]?.getD default = _
  split
  · rename_i h
    simp [h]
  rcases Nat.lt_or_ge m g.blocks.length with hm | hm
  · rw [getElem?_append_left hm]
    rfl
  · rw [getElem?_eq_none (by simp; omega), block, getElem?_eq_none hm]

end Catalog

namespace Workspace

variable {loading : List String} {k : String} {n : Nat} {w₀ w w' : Workspace}

theorem Sound.append (h : w.Sound loading) (k : String) : w.Sound (loading ++ [k]) :=
  { h with
    known := fun k' m hk' =>
      have ⟨hid, hlt, hor⟩ := h.known k' m hk'
      ⟨hid, hlt, hor.imp_left (mem_append_left _)⟩ }

theorem Sound.retract (h : w.Sound (loading ++ [k]))
    (hk : ∀ m, w.catalog.byIdentifier? k = some m → ¬(w.catalog.block m).IsComplete) :
    Sound loading { w with catalog := w.catalog.retract k } := by
  refine ⟨h.number, ?_, ?_, h.owner, ?_⟩
  · intro k' m hk'
    rw [byIdentifier?_retract] at hk'
    split at hk'
    · cases hk'
    rename_i hne
    obtain ⟨hid, hlt, hor⟩ := h.known k' m hk'
    refine ⟨hid, hlt, hor.imp_left fun hmem => ?_⟩
    simpa [hne] using hmem
  · intro m hm
    rw [byIdentifier?_retract]
    split
    · rename_i heq
      exact absurd hm (hk m (heq ▸ h.listed m hm))
    · exact h.listed m hm
  · intro m sheet hm
    exact (h.soundAt m sheet hm).keep fun _ _ => rfl

def start (w : Workspace) (k : String) : Workspace :=
  { w with catalog := (w.catalog.startBlock k (nameFromFile k)).2 }

theorem next_start (w : Workspace) (k : String) : (w.start k).next = w.next + 1 := by
  simp [next, start, startBlock]

theorem block_start (w : Workspace) (k : String) (m : Nat) :
    (w.start k).catalog.block m = if m = w.next
      then .new w.next k (nameFromFile k) else w.catalog.block m :=
  block_startBlock

theorem block_start_of_isComplete (h : ((w.start k).catalog.block m).IsComplete) :
    m ≠ w.next ∧ (w.start k).catalog.block m = w.catalog.block m := by
  rw [block_start] at h ⊢
  split at h
  · cases h
  · rename_i hm
    exact ⟨hm, if_neg hm⟩

theorem start_grows (hk : k ∉ loading) (w : Workspace) :
    w.Grows (fun _ => True) loading (w.start k) := by
  refine ⟨by simp [next_start], fun m hm _ => ?_, fun k' hk' => ?_⟩
  · exact (w.block_start k m).trans (if_neg (Nat.ne_of_lt hm))
  · refine byIdentifier?_startBlock.trans (if_neg ?_)
    rintro rfl
    exact hk hk'

theorem Open.grows_of_start (hk : k ∉ loading)
    (h : Open (loading ++ [k]) k w.next (w.start k) w') :
    w.Grows (fun _ => True) loading w' := by
  have hs := start_grows hk w
  refine ⟨hs.length_le.trans h.grows.length_le, fun m hm _ => ?_, fun k' hk' => ?_⟩
  · exact (h.grows.block_eq m (hm.trans_le hs.length_le) (Nat.ne_of_lt hm)).trans
      (hs.block_eq m hm trivial)
  · exact (h.grows.identifiers k' (mem_append_left _ hk')).trans (hs.identifiers k' hk')

theorem begun_start (hw : w.Sound loading) (hk : w.catalog.byIdentifier? k = none) :
    Begun (loading ++ [k]) k w.next (w.start k) (w.start k) := by
  set n := w.next with hn
  have hblock := w.block_start k
  have hnew : (w.start k).catalog.block n = .new n k (nameFromFile k) :=
    (hblock n).trans (if_pos rfl)
  have hby : ∀ k', (w.start k).catalog.byIdentifier? k'
      = if k' = k then some n else w.catalog.byIdentifier? k' :=
    fun k' => byIdentifier?_startBlock
  have hlen : (w.start k).next = n + 1 := w.next_start k
  have hold : ∀ m, ((w.start k).catalog.block m).IsComplete →
      m ≠ n ∧ (w.start k).catalog.block m = w.catalog.block m :=
    fun m hm => block_start_of_isComplete hm
  have hkeep : w.catalog.KeepsComplete (w.start k).catalog := fun m hm =>
    (hblock m).trans (if_neg (Nat.ne_of_lt (lt_of_isComplete hm)))
  refine ⟨⟨⟨⟨?_, ?_, ?_, ?_, ?_⟩, .refl _, ?_, ?_, ?_, ?_⟩, ?_, ?_⟩, ?_⟩
  · intro m hm
    rw [hblock]
    split
    · rename_i h
      exact h.symm
    · exact hw.number m (by omega)
  · intro k' m hk'
    rw [hby] at hk'
    split at hk'
    · rename_i heq
      cases hk'
      rw [hnew, hlen]
      exact ⟨heq.symm, Nat.lt_succ_self n, .inl (by simp [heq])⟩
    · obtain ⟨hid, hlt, hor⟩ := hw.known k' m hk'
      rw [hblock, if_neg (Nat.ne_of_lt hlt), hlen]
      exact ⟨hid, Nat.lt_succ_of_lt hlt, hor.imp_left (mem_append_left _)⟩
  · intro m hm
    obtain ⟨-, heq⟩ := hold m hm
    rw [heq] at hm ⊢
    have hl := hw.listed m hm
    rw [hby, if_neg, hl]
    intro h
    rw [h, hk] at hl
    cases hl
  · intro m hm
    obtain ⟨-, heq⟩ := hold m hm
    rw [heq] at hm ⊢
    exact hw.owner m hm
  · intro m sheet hm
    obtain ⟨-, heq⟩ := hold m (Block.isComplete_of_stylesheet hm)
    rw [heq] at hm
    exact (hw.soundAt m sheet hm).keep hkeep
  · omega
  · exact (hby k).trans (if_pos rfl)
  · rw [hnew]
    rfl
  · rw [hnew]
    rfl
  · -- a block that is begun links to nothing
    intro m hm
    rw [LinksTo, hnew] at hm
    cases hm with
    | reference name hm | base hm | implements hm => cases hm
    | exported name hname hm =>
      have heq := mem_singleton.1 (show (name, m) ∈ [(selfExport, n)] from hm)
      exact absurd (congrArg Prod.fst heq) hname
  · intro m hm
    rw [hnew] at hm
    exact congrArg Prod.snd (mem_singleton.1 (show (selfExport, m) ∈ [(selfExport, n)] from hm))
  · rw [hnew]
    rfl

/-- The block has been read from the stylesheet. -/
def complete (w : Workspace) (n : Nat) (sheet : Stylesheet) : Workspace :=
  w.modifyBlock n fun b => { b with stylesheet := some sheet }

theorem block_complete_self (h : n < w.next) (sheet : Stylesheet) :
    (w.complete n sheet).catalog.block n
      = { w.catalog.block n with stylesheet := some sheet } :=
  block_modifyBlock_self h

theorem block_complete_of_ne (h : m ≠ n) (sheet : Stylesheet) :
    (w.complete n sheet).catalog.block m = w.catalog.block m :=
  block_modifyBlock_of_ne h

/-- **A block that is read and has its name is made complete.** -/
theorem Linked.sound_complete (h : Linked (loading ++ [k]) k n w₀ w) {sheet : Stylesheet}
    {file : String} (hname : isIdentifier (w.catalog.block n).name = true)
    (howner : w.reservations.nameOwner? (w.catalog.block n).name = some k)
    (hguid : (w.catalog.block n).guid ≠ "")
    (hholds : BlockReader.Holds ⟨n, file⟩ sheet sheet.rules w) :
    Sound loading (w.complete n sheet) := by
  set w' := w.complete n sheet with hw'
  have hn : w'.catalog.block n = { w.catalog.block n with stylesheet := some sheet } :=
    block_complete_self h.lt sheet
  have hothers : ∀ m, m ≠ n → w'.catalog.block m = w.catalog.block m :=
    fun m hm => block_complete_of_ne hm sheet
  have hkeep : w.catalog.KeepsComplete w'.catalog :=
    fun m hm => hothers m (h.ne_of_isComplete hm)
  refine ⟨?_, ?_, ?_, ?_, ?_⟩
  · intro m hm
    have hm : m < w.next := hm.trans_eq length_modifyBlock
    by_cases hmn : m = n
    · rw [hmn, hn]
      exact h.sound.number n h.lt
    · rw [hothers m hmn]
      exact h.sound.number m hm
  · intro k' m hk'
    obtain ⟨hid, hlt, hor⟩ := h.sound.known k' m hk'
    have hlt' := hlt.trans_eq (length_modifyBlock (g := w.catalog) (n := n)
      (f := fun b => { b with stylesheet := some sheet })).symm
    by_cases hmn : m = n
    · subst hmn
      rw [hn]
      exact ⟨hid, hlt', .inr rfl⟩
    rw [hothers m hmn]
    refine ⟨hid, hlt', hor.imp_left fun hmem => ?_⟩
    rcases mem_append.1 hmem with hmem | hmem
    · exact hmem
    · -- the file that is read leads to its block
      rw [mem_singleton.1 hmem] at hk'
      exact absurd (Option.some.inj (hk'.symm.trans h.listed)) hmn
  · intro m hm
    by_cases hmn : m = n
    · rw [hmn, hn]
      exact (congrArg _ h.identifier).trans h.listed
    · rw [hothers m hmn] at hm ⊢
      exact h.sound.listed m hm
  · intro m hm
    by_cases hmn : m = n
    · rw [hmn, hn]
      exact howner.trans (congrArg some h.identifier.symm)
    · rw [hothers m hmn] at hm ⊢
      exact h.sound.owner m hm
  · intro m sheet' hm
    by_cases hmn : m = n
    · subst hmn
      rw [hn] at hm
      obtain rfl : sheet = sheet' := Option.some.inj hm
      have hholds' : BlockReader.Holds ⟨m, file⟩ sheet sheet.rules w' :=
        hholds.congr hkeep (by rw [hn]) (by rw [hn]) (by rw [hn])
      refine ⟨?_, ?_, ?_, .intro ?_ fun m' hm' => ?_, hholds'.canDebug, hholds'.readsRules, file,
        hholds'.reflects⟩
      · rw [hn]
        exact hname
      · rw [hn]
        exact hguid
      · rw [hn]
        exact h.exportsSelf
      · rw [hn]
        rfl
      · -- what the block links to was complete before
        rw [LinksTo, hn] at hm'
        exact (h.sound.grounded (h.complete m' (hm'.congr rfl rfl rfl rfl))).keep hkeep
    · rw [hothers m hmn] at hm
      exact (h.sound.soundAt m sheet' hm).keep hkeep

end Workspace

namespace Library

open Workspace

variable {lib : Library} {loading : List String} {k : String} {w w' : Workspace}

theorem dependOn_foldl (l : List String) (b : Block) :
    ∃ d, l.foldl Block.dependOn b = { b with dependencies := d } := by
  refine List.foldlRecOn (motive := fun b' : Block => ∃ d, b' = { b with dependencies := d })
    _ _ ⟨_, rfl⟩ ?_
  rintro _ ⟨d, rfl⟩ path -
  unfold Block.dependOn
  dsimp only
  split <;> exact ⟨_, rfl⟩

theorem leads_dependOn {γ : Type} {φ : Block → γ} (hφ : ∀ b l, φ { b with dependencies := l } = φ b)
    (n : Nat) (files : List String) :
    Leads (EditsOnly φ n) (LoadM.modifyBlock n fun b => files.foldl Block.dependOn b) := by
  refine LoadM.leads_modifyBlock fun b => ?_
  obtain ⟨d, hd⟩ := dependOn_foldl files b
  rw [hd]
  exact hφ b d

theorem begun_dependOn (hw : w.Sound loading) (hnone : w.catalog.byIdentifier? k = none)
    {files : List String}
    (h : (LoadM.modifyBlock w.next fun b => files.foldl Block.dependOn b).run
      (w.start k) = (.ok u, w')) :
    Begun (loading ++ [k]) k w.next (w.start k) w' := by
  have hb := begun_start hw hnone
  obtain ⟨d, hd⟩ := dependOn_foldl files
    ((w.start k).catalog.block w.next)
  cases h
  refine hb.of_linked (hb.toLinked.modifyBlock (by rw [hd]; rfl) (fun m hm => ?_)
    (by rw [hd]; exact hb.exportsSelf)) (by rw [hd])
  rw [hd] at hm
  exact hb.complete m (hm.congr rfl rfl rfl rfl)

def fill (lib : Library) (n : Nat) (k : String) (load : LoadStep) (sheet : Stylesheet)
    (deps : List String) : LoadM Unit := do
  LoadM.modifyBlock n fun b =>
    ((lib.source.dependency? k).toList ++ deps).foldl Block.dependOn b
  BlockReader.read ⟨n, lib.source.displayName k⟩ load lib.options.faultTolerant sheet
  lib.register n k

/-- Filling the block that the file `k` starts. -/
def fillNew (lib : Library) (w : Workspace) (k : String) (load : LoadStep) (sheet : Stylesheet)
    (deps : List String) : Except BlockError Unit × Workspace :=
  (lib.fill w.next k load sheet deps).run (w.start k)

theorem run_loadFile (lib : Library) (k : String) (file : SourceFile) (load : LoadStep)
    (w : Workspace) : (lib.loadFile k file load).run w =
      match lib.readStylesheet k file with
      | .error e => (.error e, w)
      | .ok (sheet, deps) =>
        let n := w.next
        match lib.fillNew w k load sheet deps with
        | (.error e, w') => (.error e, w')
        | (.ok _, w') => (.ok n, w'.complete n sheet) := by
  rcases hread : lib.readStylesheet k file with e | ⟨sheet, deps⟩
  · unfold loadFile
    simp only [hread]
    rfl
  have hassoc : lib.loadFile k file load = (liftM (lib.readStylesheet k file) :
      LoadM _) >>= fun p => get >>= fun w =>
        modify (fun w' => { w' with
          catalog := (w.catalog.startBlock k (nameFromFile k)).2 }) >>= fun _ =>
        lib.fill w.next k load p.1 p.2 >>= fun _ => do
          LoadM.modifyBlock w.next fun b => { b with stylesheet := some p.1 }
          return w.next := by
    simp only [loadFile, fill, bind_assoc]
    rfl
  rw [hassoc, run_bind]
  simp only [hread]
  change ((lib.fill w.next k load sheet deps >>= fun _ => do
    LoadM.modifyBlock w.next fun b => { b with stylesheet := some sheet }
    return w.next : LoadM Nat)).run (w.start k) = _
  rw [run_bind]
  unfold fillNew
  rcases (lib.fill w.next k load sheet deps).run (w.start k) with ⟨_ | _, w'⟩ <;> rfl

theorem leads_fill_by {I : Workspace → Prop} {n : Nat} {load : LoadStep} (lib : Library) (k : String)
    (hchange : ∀ w w', w.ChangesOnly besidesRules n w' → I w → I w')
    (hrule : ∀ rule, Leads (Keeps I) (readRule ⟨n, lib.source.displayName k⟩ rule))
    (hload : ∀ path, Leads (Keeps I) (load path)) (sheet : Stylesheet)
    (deps : List String) : Leads (Keeps I) (lib.fill n k load sheet deps) := by
  refine Leads.bind ?_ fun _ => Leads.bind ?_ fun _ => ?_
  · exact (leads_dependOn (fun _ _ => rfl) n _).changesOnly.mono hchange
  · exact leads_read_by (r := ⟨n, _⟩) (fun w w' hc => hchange w w' hc.toChangesOnly) hrule hload _ _
  · exact (leads_register (fun _ _ => rfl) (fun _ _ => rfl) fun _ _ _ _ => rfl).mono hchange

theorem leads_fill_of {I : Workspace → Prop} {n : Nat} {load : LoadStep}
    (hchange : ∀ w w', w.ChangesOnly fixed n w' → I w → I w')
    (hload : ∀ path, Leads (Keeps I) (load path)) (lib : Library) (k : String) (sheet : Stylesheet)
    (deps : List String) : Leads (Keeps I) (lib.fill n k load sheet deps) :=
  lib.leads_fill_by k (fun w w' hc => hchange w w' { hc with kept := congrArg Prod.fst hc.kept })
    (fun rule => (ordinary_readRule ⟨n, _⟩ (fun _ _ => rfl) rule).leads.changesOnly.mono hchange)
    hload sheet deps

section

variable {load : LoadStep} (hload : load.Loads (loading ++ [k]))
  (hw : w.Sound loading) (hnone : w.catalog.byIdentifier? k = none) (sheet : Stylesheet)
  (deps : List String)

theorem leads_open_load {n : Nat} {w₀ : Workspace} (hk : k ∈ loading)
    (hload : load.Loads loading) (path : String) :
    Leads (Keeps (Open loading k n w₀)) (load path) := by
  intro w ho
  obtain ⟨hs, hg, -⟩ := hload path w ho.sound
  exact ho.of_grows hk hs hg

include hload hw hnone

theorem open_fill (lib : Library) :
    Open (loading ++ [k]) k w.next (w.start k)
      (lib.fillNew w k load sheet deps).2 :=
  leads_fill_of (fun _ _ hc ho => ho.of_changesOnly hc) (leads_open_load (by simp) hload) lib k sheet
    deps _ (begun_start hw hnone).toOpen

omit hload in
theorem fill_eq_ok
    (h : lib.fillNew w k load sheet deps = (.ok u, w')) :
    ∃ w₁ w₂ d, Begun (loading ++ [k]) k w.next (w.start k) w₁ ∧
      (w.start k).EditsOnly fixed w.next w₁ ∧
      w₁.catalog.block w.next
        = { Block.new w.next k (nameFromFile k) with dependencies := d } ∧
      (read ⟨w.next, lib.source.displayName k⟩ load
        lib.options.faultTolerant sheet).run w₁ = (.ok (), w₂) ∧
      (lib.register w.next k).run w₂ = (.ok u, w') := by
  obtain ⟨_, w₁, h₁, h⟩ := run_bind_ok h
  obtain ⟨_, w₂, h₂, h₃⟩ := run_bind_ok h
  have hb₁ := begun_dependOn hw hnone h₁
  have hedits := (leads_dependOn (φ := fixed) (fun _ _ => rfl) _ _).of_ok h₁
  cases h₁
  obtain ⟨d, hd⟩ := dependOn_foldl ((lib.source.dependency? k).toList ++ deps)
    (Block.new w.next k (nameFromFile k))
  refine ⟨_, w₂, d, hb₁, hedits, ?_, h₂, h₃⟩
  have hnew : (w.start k).catalog.block w.next
      = .new w.next k (nameFromFile k) :=
    (w.block_start k _).trans (if_pos rfl)
  rw [← hd, ← hnew]
  exact block_modifyBlock_self (by simp [start, startBlock])

theorem fill_ok
    (h : lib.fillNew w k load sheet deps = (.ok u, w')) :
    Sound loading (w'.complete w.next sheet) := by
  obtain ⟨w₁, w₂, -, hb₁, -, -, h₂, h₃⟩ := fill_eq_ok hw hnone sheet deps h
  obtain ⟨hl₂, hholds⟩ := read_ok (r := ⟨w.next, _⟩) (by simp) hload hb₁ h₂
  obtain ⟨hname, howner, hguid⟩ := register_ok hl₂.lt h₃
  have hc := (leads_register (φ := fun b => (Linked.linkData b, b.objects))
    (fun _ _ => rfl) (fun _ _ => rfl) fun _ _ _ _ => rfl).of_ok h₃
  obtain ⟨hkept, ho⟩ := Prod.mk.inj hc.kept
  have hl₃ := hl₂.of_changesOnly { hc with kept := hkept }
  exact hl₃.sound_complete hname howner hguid (hholds.congr (hl₂.keepsComplete hc)
    (congrArg (·.1.1) hkept) ho (congrArg (·.2.1) hkept))

end

/-- Loading with the files that are being loaded as an argument: what a session does that keeps them
(`Session.load_eq`). -/
def load (lib : Library) (loading : List String) (k : String) : LoadM Nat := do
  if hl : k ∈ loading then throw (.importing (.cycle (lib.circle loading k)) none)
  else
    match (← get).catalog.byIdentifier? k with
    | some n => return n
    | none =>
      match hf : lib.source.fetch k with
      | .error fault => throw (.importing fault none)
      | .ok file =>
        have := remaining_lt (Source.mem_identifiers_of_fetch hf) hl
        retractOnError k (lib.loadFile k file fun path =>
          lib.load (loading ++ [k]) (lib.identifier (some k) path))
termination_by lib.remaining loading

/-- The step that loads the blocks which the file `k` names. -/
def loadFrom (lib : Library) (loading : List String) (k : String) : LoadStep :=
  fun path => lib.load (loading ++ [k]) (lib.identifier (some k) path)

theorem run_load (lib : Library) (loading : List String) (k : String) (w : Workspace) :
    (lib.load loading k).run w =
      if k ∈ loading then (.error (.importing (.cycle (lib.circle loading k)) none), w)
      else match w.catalog.byIdentifier? k with
        | some n => (.ok n, w)
        | none => match lib.source.fetch k with
          | .error fault => (.error (.importing fault none), w)
          | .ok file => (retractOnError k (lib.loadFile k file (lib.loadFrom loading k))).run w := by
  have hget : (get : LoadM Workspace).run w = (.ok w, w) := rfl
  rw [load]
  by_cases hl : k ∈ loading
  · rw [dif_pos hl, if_pos hl]
    rfl
  rw [dif_neg hl, if_neg hl, run_bind, hget]
  cases hm : w.catalog.byIdentifier? k with
  | some n =>
    simp only [hm]
    rfl
  | none =>
    simp only [hm]
    split <;> rename_i hf <;> simp only [hf] <;> rfl

/-- **What loading does, case by case.**  The file is being loaded, its block is there, or it is to be
loaded: then it cannot be had, it cannot be parsed, or its block is begun and filled, with success or
not. -/
theorem load_induct
    {Q : List String → String → Workspace → Except BlockError Nat × Workspace → Prop}
    (circle : ∀ loading k w, k ∈ loading →
      Q loading k w (.error (.importing (.cycle (lib.circle loading k)) none), w))
    (known : ∀ loading k w n, k ∉ loading → w.catalog.byIdentifier? k = some n →
      Q loading k w (.ok n, w))
    (missing : ∀ loading k w fault, k ∉ loading → w.catalog.byIdentifier? k = none →
      lib.source.fetch k = .error fault → Q loading k w (.error (.importing fault none), w))
    (unread : ∀ loading k w file e, k ∉ loading → w.catalog.byIdentifier? k = none →
      lib.source.fetch k = .ok file →
      lib.readStylesheet k file = .error e →
      Q loading k w (.error e, { w with catalog := w.catalog.retract k }))
    (failed : ∀ loading k w file sheet deps e w', k ∉ loading →
      w.catalog.byIdentifier? k = none → lib.source.fetch k = .ok file →
      lib.readStylesheet k file = .ok (sheet, deps) →
      (∀ path w, Q (loading ++ [k]) (lib.identifier (some k) path) w
        ((lib.loadFrom loading k path).run w)) →
      lib.fillNew w k (lib.loadFrom loading k) sheet deps = (.error e, w') →
      Q loading k w (.error e, { w' with catalog := w'.catalog.retract k }))
    (filled : ∀ loading k w file sheet deps w', k ∉ loading →
      w.catalog.byIdentifier? k = none → lib.source.fetch k = .ok file →
      lib.readStylesheet k file = .ok (sheet, deps) →
      (∀ path w, Q (loading ++ [k]) (lib.identifier (some k) path) w
        ((lib.loadFrom loading k path).run w)) →
      lib.fillNew w k (lib.loadFrom loading k) sheet deps = (.ok (), w') →
      Q loading k w (.ok w.next, w'.complete w.next sheet))
    (loading : List String) (k : String) (w : Workspace) :
    Q loading k w ((lib.load loading k).run w) := by
  -- the files that are not being loaded get fewer
  induction hn : lib.remaining loading using Nat.strong_induction_on generalizing loading k w with
  | _ n ih =>
    rw [run_load]
    split
    · rename_i hl
      exact circle loading k w hl
    rename_i hl
    split
    · rename_i m hm
      exact known loading k w m hl hm
    rename_i hnone
    split
    · rename_i fault hf
      exact missing loading k w fault hl hnone hf
    rename_i file hf
    have hlt := remaining_lt (Source.mem_identifiers_of_fetch hf) hl
    have hih : ∀ path w, Q (loading ++ [k]) (lib.identifier (some k) path) w
        ((lib.loadFrom loading k path).run w) := fun path w => ih _ (hn ▸ hlt) _ _ w rfl
    unfold retractOnError
    rw [run_tryCatch, run_loadFile]
    rcases hread : lib.readStylesheet k file with e | ⟨sheet, deps⟩
    · exact unread loading k w file e hl hnone hf hread
    dsimp only
    rcases hrun : lib.fillNew w k (lib.loadFrom loading k) sheet deps with ⟨e | u, w'⟩
    · exact failed loading k w file sheet deps e w' hl hnone hf hread hih hrun
    · exact filled loading k w file sheet deps w' hl hnone hf hread hih hrun

theorem grows_retract (h : w.Grows (fun _ => True) loading w')
    (hk : k ∉ loading) :
    w.Grows (fun _ => True) loading { w' with catalog := w'.catalog.retract k } := by
  refine ⟨h.length_le, h.block_eq, fun k' hk' => ?_⟩
  rw [← h.identifiers k' hk']
  refine byIdentifier?_retract.trans (if_neg ?_)
  rintro rfl
  exact hk hk'

/-- **Loading keeps a workspace sound, and gives a complete block.** -/
theorem loads_load (lib : Library) (loading : List String) (k : String) :
    LoadM.Loads loading (lib.load loading k) := by
  intro w
  refine load_induct (Q := fun loading k w out => w.Sound loading → out.2.Sound loading ∧
    w.Grows (fun _ => True) loading out.2 ∧
    ∀ m, out.1 = .ok m → (out.2.catalog.block m).IsComplete) ?_ ?_ ?_ ?_ ?_ ?_ loading k w
  · intro loading k w _ hw
    exact ⟨hw, .refl w, fun m hm => by cases hm⟩
  · intro loading k w n hl hn hw
    refine ⟨hw, .refl w, fun m hm => ?_⟩
    cases hm
    obtain ⟨-, -, hor⟩ := hw.known k n hn
    exact hor.resolve_left hl
  · intro loading k w fault _ _ _ hw
    exact ⟨hw, .refl w, fun m hm => by cases hm⟩
  · intro loading k w file e hl hnone _ _ hw
    refine ⟨(hw.append k).retract fun m hm => ?_, grows_retract (.refl w) hl, fun m hm => by cases hm⟩
    rw [hnone] at hm
    cases hm
  · intro loading k w file sheet deps e w' hl hnone _ _ ih hrun hw
    have hopen := open_fill ih hw hnone sheet deps lib
    rw [hrun] at hopen
    refine ⟨hopen.sound.retract fun m hm hm' => ?_, grows_retract (hopen.grows_of_start hl) hl,
      fun m hm => by cases hm⟩
    exact hopen.ne_of_isComplete hm' (Option.some.inj (hm.symm.trans hopen.listed))
  · intro loading k w file sheet deps w' hl hnone _ _ ih hrun hw
    have hopen := open_fill ih hw hnone sheet deps lib
    rw [hrun] at hopen
    have hg := hopen.grows_of_start hl
    refine ⟨fill_ok ih hw hnone sheet deps hrun, ⟨?_, ?_, hg.identifiers⟩, ?_⟩
    · exact hg.length_le.trans_eq length_modifyBlock.symm
    · exact fun m hm _ => (block_complete_of_ne (Nat.ne_of_lt hm) sheet).trans
        (hg.block_eq m hm trivial)
    rintro m hm
    cases hm
    rw [block_complete_self hopen.lt]
    rfl

theorem loads_loadFrom (lib : Library) (loading : List String) (k path : String) :
    LoadM.Loads (loading ++ [k]) (lib.loadFrom loading k path) :=
  lib.loads_load _ _

def AllComplete (P : Catalog → Nat → Prop) (w : Workspace) : Prop :=
  ∀ m, (w.catalog.block m).IsComplete → P w.catalog m

section

variable {P : Catalog → Nat → Prop} (hkeep : ∀ loading w g m, Sound loading w →
  w.catalog.KeepsComplete g → (w.catalog.block m).IsComplete → P w.catalog m → P g m)

include hkeep

theorem allComplete_fill (lib : Library) (hw : w.Sound loading)
    (hnone : w.catalog.byIdentifier? k = none) (h : AllComplete P w)
    (ih : ∀ path w, w.Sound (loading ++ [k]) → AllComplete P w →
      AllComplete P ((lib.loadFrom loading k path).run w).2)
    {sheet : Stylesheet} {deps : List String} {out : Except BlockError Unit × Workspace}
    (hrun : lib.fillNew w k (lib.loadFrom loading k) sheet deps = out) :
    Open (loading ++ [k]) k w.next (w.start k) out.2 ∧
      AllComplete P out.2 := by
  subst hrun
  refine leads_fill_of (I := fun v => Open (loading ++ [k]) k w.next
    (w.start k) v ∧ AllComplete P v) ?_ ?_ lib k sheet deps _
    ⟨(begun_start hw hnone).toOpen, fun m hm => ?_⟩
  · rintro v v' hc ⟨ho, hv⟩
    have ho' := ho.of_changesOnly hc
    refine ⟨ho', fun m hm => ?_⟩
    rw [hc.others m (ho'.ne_of_isComplete hm)] at hm
    exact hkeep _ v _ m ho.sound (ho.keepsComplete hc) hm (hv m hm)
  · rintro path v ⟨ho, hv⟩
    exact ⟨leads_open_load (by simp) (lib.loads_loadFrom loading k) path v ho, ih path v ho.sound hv⟩
  · obtain ⟨-, heq⟩ := block_start_of_isComplete hm
    rw [heq] at hm
    refine hkeep _ w _ m hw (fun m hm => ?_) hm (h m hm)
    exact (w.block_start k m).trans (if_neg (Nat.ne_of_lt (lt_of_isComplete hm)))

/-- **What all complete blocks have after a load**, whether it fails or not: what is a matter of the
complete blocks, and a block has once it is made complete. -/
theorem allComplete_load (hfilled : ∀ loading k (w : Workspace) sheet deps w',
      w.Sound loading → w.catalog.byIdentifier? k = none →
      lib.fillNew w k (lib.loadFrom loading k) sheet deps = (.ok (), w') →
      P (w'.complete w.next sheet).catalog w.next)
    (loading : List String) (k : String) (w : Workspace) : w.Sound loading → AllComplete P w →
    AllComplete P ((lib.load loading k).run w).2 := by
  refine load_induct (Q := fun loading k w out => w.Sound loading → AllComplete P w →
    AllComplete P out.2) ?_ ?_ ?_ ?_ ?_ ?_ loading k w
  · exact fun _ _ _ _ _ h => h
  · exact fun _ _ _ _ _ _ _ h => h
  · exact fun _ _ _ _ _ _ _ _ h => h
  · exact fun _ _ w _ _ _ _ _ _ hw h m hm => hkeep _ w _ m hw (fun _ _ => rfl) hm (h m hm)
  · intro loading k w file sheet deps e w' _ hnone _ _ ih hrun hw h m hm
    obtain ⟨ho, hall⟩ := allComplete_fill hkeep lib hw hnone h ih hrun
    exact hkeep _ w' _ m ho.sound (fun _ _ => rfl) hm (hall m hm)
  · intro loading k w file sheet deps w' _ hnone _ _ ih hrun hw h m hm
    obtain ⟨ho, hall⟩ := allComplete_fill hkeep lib hw hnone h ih hrun
    by_cases hmn : m = w.next
    · rw [hmn]
      exact hfilled loading k w sheet deps w' hw hnone hrun
    · have hm : (w'.catalog.block m).IsComplete := by
        dsimp only at hm
        rwa [block_complete_of_ne hmn] at hm
      exact hkeep _ w' _ m ho.sound
        (fun m hm => block_complete_of_ne (ho.ne_of_isComplete hm) sheet) hm (hall m hm)

end

end Library

/-! ## Sessions -/

namespace Session

/-- **What a session loads, and that it leaves no file on the stack**, whether it fails or not. -/
theorem load_eq (s : Session) (k : String) : s.load k = s.perform (s.library.load s.loading k) := by
  -- the files that are not being loaded get fewer
  induction hn : s.library.remaining s.loading using Nat.strong_induction_on generalizing s k with
  | _ n ih =>
    rw [load, perform, Library.run_load]
    by_cases hl : k ∈ s.loading
    · rw [dif_pos hl, if_pos hl]
      rfl
    rw [dif_neg hl, if_neg hl]
    dsimp only [catalog]
    cases s.workspace.catalog.byIdentifier? k with
    | some m => rfl
    | none =>
      dsimp only
      split <;> rename_i hf <;> simp only [hf]
      · rfl
      have hlt := Library.remaining_lt (Source.mem_identifiers_of_fetch hf) hl
      have hinner : ∀ k' w, ((s.push k).withWorkspace w).load k'
          = ((s.push k).withWorkspace w).perform (s.library.load (s.loading ++ [k]) k') :=
        fun k' w => ih _ (hn ▸ hlt) ((s.push k).withWorkspace w) k' rfl
      simp only [hinner]
      simp only [perform, withWorkspace, push, pop, List.dropLast_concat]
      rfl

/-- A session that was begun, asked for blocks and given other files to read from. -/
inductive Reachable : Session → Prop
  | new (options : Options) (source : Source) : Reachable (new options source)
  | request {s : Session} (origin : Option String) (path : String) (h : Reachable s) :
      Reachable (s.requestFrom origin path).2
  | setSource {s : Session} (source : Source) (h : Reachable s) : Reachable (s.setSource source)
  | setPreprocessor {s : Session} (language : Language) (p : Preprocessor) (h : Reachable s) :
      Reachable (s.setPreprocessor language p)

variable {s : Session}

/-- **No file is being loaded when no request is under way.** -/
theorem Reachable.loading_eq_nil (h : Reachable s) : s.loading = [] := by
  induction h with
  | new options source => rfl
  | request origin path _ ih =>
    rw [requestFrom, load_eq]
    exact ih
  | setSource source _ ih | setPreprocessor language p _ ih => exact ih

theorem Reachable.requestFrom_eq (h : Reachable s) (origin : Option String) (path : String) :
    s.requestFrom origin path
      = s.perform (s.library.load [] (s.library.identifier origin path)) := by
  rw [requestFrom, load_eq, h.loading_eq_nil]

theorem Reachable.sound (h : Reachable s) : s.workspace.Sound [] := by
  induction h with
  | new options source =>
    have hblock : ∀ m, ¬((Workspace.empty options).catalog.block m).IsComplete := by
      intro m hm
      cases m <;> cases hm
    refine ⟨fun m hm => ?_, fun k m hk => ?_, fun m hm => ?_, fun m hm => ?_, fun m sheet hm => ?_⟩
    · cases hm
    · cases hk
    · exact absurd hm (hblock m)
    · exact absurd hm (hblock m)
    · exact absurd (Block.isComplete_of_stylesheet hm) (hblock m)
  | request origin path h ih =>
    rw [h.requestFrom_eq]
    exact (Library.loads_load _ _ _ _ ih).1
  | setSource source _ ih | setPreprocessor language p _ ih => exact ih

theorem Reachable.workspace_induct {P : Options → Workspace → Prop} (new : ∀ o, P o (.empty o))
    (load : ∀ (lib : Library) k w, w.Sound [] → P lib.options w → P lib.options ((lib.load [] k).run w).2)
    (h : Reachable s) : P s.library.options s.workspace := by
  induction h with
  | new options source => exact new options
  | request origin path h ih =>
    rw [h.requestFrom_eq]
    exact load _ _ _ h.sound ih
  | setSource source _ ih | setPreprocessor language p _ ih => exact ih

theorem Reachable.isComplete_of_byIdentifier? (h : Reachable s) {k : String} {n : Nat}
    (hn : s.catalog.byIdentifier? k = some n) : (s.catalog.block n).IsComplete := by
  obtain ⟨-, -, hloading | hcomplete⟩ := h.sound.known k n hn
  · cases hloading
  · exact hcomplete

def ofFiles (files : List (String × String)) (paths : List String) : Session :=
  paths.foldl (fun s path => (s.request path).2)
    (.new {} (files.foldl (fun source file => source.add file.1 file.2 none) .empty))

theorem reachable_ofFiles (files : List (String × String)) (paths : List String) :
    Reachable (ofFiles files paths) :=
  List.foldlRecOn _ _ (.new _ _) fun _ hs path _ => .request none path hs

end Session

end StyleBlocks
