import StyleBlocks.Proofs.Session.AtRules
import StyleBlocks.Proofs.SortedMap

/-!
# What is known of a block that is read

A block is read in phases, and other blocks are loaded in the first of them.  What the phases of a
block that is read with success say together is that it refers to complete blocks and has the objects
of its rules.

Main result: `BlockReader.read_ok`.
-/

namespace StyleBlocks

open Catalog List SortedMap

variable {f : Block → Block} {location : Location} {name : String} {rule : Rule} {rules : List Rule}
  {selector : Selector} {sheet : Stylesheet} {target : Nat} {u : Unit} {loading : List String}
  {w₀ w w' : Workspace} {load : LoadStep} {r : BlockReader} {k : String}

/-! ## Loading the blocks that a block names -/

/-- What loading does while the files of `loading` are being loaded. -/
def LoadM.Loads (loading : List String) (x : LoadM Nat) : Prop :=
  ∀ w : Workspace, w.Sound loading → (x.run w).2.Sound loading ∧
    w.Grows (fun _ => True) loading (x.run w).2 ∧
    ∀ m, (x.run w).1 = .ok m → ((x.run w).2.catalog.block m).IsComplete

abbrev LoadStep.Loads (load : LoadStep) (loading : List String) : Prop :=
  ∀ path, LoadM.Loads loading (load path)

namespace Workspace

variable {n : Nat}

theorem Grows.keepsComplete (h : w.Grows (fun _ => True) loading w') :
    w.catalog.KeepsComplete w'.catalog :=
  fun m hm => h.block_eq m (lt_of_isComplete hm) trivial

theorem Sound.isComplete_of_export? (h : w.Sound loading) {m : Nat}
    (hm : (w.catalog.block m).IsComplete) (he : (w.catalog.block m).export? name = some target) :
    (w.catalog.block target).IsComplete := by
  obtain ⟨sheet, hsheet⟩ := Option.isSome_iff_exists.1 hm
  have hmem := mem_of_find? he
  by_cases hname : name = selfExport
  · subst hname
    rw [(h.soundAt m sheet hsheet).exportsSelf target hmem]
    exact hm
  · exact ((h.grounded hm).of_linksTo (.exported name hname hmem)).isComplete

/-- The block that is being read links to complete blocks, and exports itself under the name that is
kept for that. -/
structure Linked (loading : List String) (k : String) (n : Nat) (w₀ w : Workspace) : Prop
    extends Open loading k n w₀ w where
  complete : ∀ m, w.catalog.LinksTo n m → (w.catalog.block m).IsComplete
  exportsSelf : ∀ m, (selfExport, m) ∈ (w.catalog.block n).exports.entries → m = n

namespace Linked

theorem of_grows (h : Linked loading k n w₀ w) (hk : k ∈ loading) (hw : w'.Sound loading)
    (hg : w.Grows (fun _ => True) loading w') : Linked loading k n w₀ w' := by
  have hn := hg.block_eq n h.lt trivial
  refine ⟨h.toOpen.of_grows hk hw hg, fun m hm => ?_, ?_⟩
  · rw [LinksTo, hn] at hm
    exact hg.keepsComplete.isComplete (h.complete m hm)
  · rw [hn]
    exact h.exportsSelf

theorem modifyBlock (h : Linked loading k n w₀ w)
    (hf : fixed (f (w.catalog.block n)) = fixed (w.catalog.block n))
    (hc : ∀ m, BlockLinks (f (w.catalog.block n)) m → (w.catalog.block m).IsComplete)
    (he : ∀ m, (selfExport, m) ∈ (f (w.catalog.block n)).exports.entries → m = n) :
    Linked loading k n w₀ (w.modifyBlock n f) := by
  have hn : (w.modifyBlock n f).catalog.block n = f (w.catalog.block n) :=
    block_modifyBlock_self h.lt
  have hkeep : w.catalog.KeepsComplete (w.modifyBlock n f).catalog := fun m hm =>
    block_modifyBlock_of_ne (h.ne_of_isComplete hm)
  refine ⟨h.toOpen.of_changesOnly (w.changesOnly_modifyBlock hf), fun m hm => ?_, ?_⟩
  · rw [LinksTo, hn] at hm
    exact hkeep.isComplete (hc m hm)
  · rw [hn]
    exact he

theorem addLink (h : Linked loading k n w₀ w) (ht : (w.catalog.block target).IsComplete)
    (hf : fixed (f (w.catalog.block n)) = fixed (w.catalog.block n))
    (hl : ∀ m, BlockLinks (f (w.catalog.block n)) m → m = target ∨ w.catalog.LinksTo n m)
    (he : ∀ m, (selfExport, m) ∈ (f (w.catalog.block n)).exports.entries → m = n) :
    Linked loading k n w₀ (w.modifyBlock n f) := by
  refine h.modifyBlock hf (fun m hm => ?_) he
  rcases hl m hm with rfl | hm
  · exact ht
  · exact h.complete m hm

def linkData (b : Block) : (Nat × String × Option Stylesheet) × SortedMap String Nat ×
    SortedMap String Nat × Option (String × Nat) × List Nat :=
  (fixed b, b.references, b.exports, b.base, b.implements)

theorem of_changesOnly (h : Linked loading k n w₀ w) (hc : w.ChangesOnly linkData n w') :
    Linked loading k n w₀ w' := by
  have hkeep := h.keepsComplete hc
  obtain ⟨hfixed, hreferences, hexports, hbase, himplements⟩ :
      fixed (w'.catalog.block n) = fixed (w.catalog.block n) ∧
      (w'.catalog.block n).references = (w.catalog.block n).references ∧
      (w'.catalog.block n).exports = (w.catalog.block n).exports ∧
      (w'.catalog.block n).base = (w.catalog.block n).base ∧
      (w'.catalog.block n).implements = (w.catalog.block n).implements := by
    simpa [linkData] using hc.kept
  refine ⟨h.toOpen.of_changesOnly { hc with kept := hfixed }, fun m hm => ?_, ?_⟩
  · exact hkeep.isComplete (h.complete m (hm.congr hreferences hexports hbase himplements))
  · rw [hexports]
    exact h.exportsSelf

end Linked

/-- Nothing but references and exports is read yet. -/
structure Begun (loading : List String) (k : String) (n : Nat) (w₀ w : Workspace) : Prop
    extends Linked loading k n w₀ w where
  objects : (w.catalog.block n).objects = [.new ":scope" .root]

theorem Begun.of_linked (h : Begun loading k n w₀ w)
    (hl : Linked loading k n w₀ (w.modifyBlock n f))
    (ho : (f (w.catalog.block n)).objects = (w.catalog.block n).objects) :
    Begun loading k n w₀ (w.modifyBlock n f) := by
  refine ⟨hl, ?_⟩
  have hn : (w.modifyBlock n f).catalog.block n = f (w.catalog.block n) :=
    block_modifyBlock_self h.lt
  rw [hn, ho]
  exact h.objects

end Workspace

namespace BlockReader

open Workspace

theorem load_ok (hk : k ∈ loading) (hload : load.Loads loading)
    (h : Begun loading k r.number w₀ w) {path : String} {m : Nat}
    (hx : (r.load load path location).run w = (.ok m, w')) :
    Begun loading k r.number w₀ w' ∧ (w'.catalog.block m).IsComplete := by
  obtain ⟨hs, hg, hm⟩ := hload path w h.sound
  rw [load_eq_ok hx] at hs hg hm
  have hn : w'.catalog.block r.number = w.catalog.block r.number :=
    hg.block_eq r.number h.lt trivial
  exact ⟨⟨h.toLinked.of_grows hk hs hg, hn ▸ h.objects⟩, hm m rfl⟩

theorem updateBlock_ok (h : Begun loading k r.number w₀ w) {place : Place}
    {f : Block → Except BlockError Block}
    (hx : (LoadM.updateBlock r.number place f).run w = (.ok u, w'))
    (hf : ∀ b, f (w.catalog.block r.number) = .ok b →
      Begun loading k r.number w₀ (w.modifyBlock r.number fun _ => b)) :
    Begun loading k r.number w₀ w' ∧ w.catalog.KeepsComplete w'.catalog := by
  obtain ⟨b, hb, rfl⟩ := LoadM.updateBlock_eq_ok hx
  exact ⟨hf b hb, fun m hm => block_modifyBlock_of_ne (h.ne_of_isComplete hm)⟩

theorem introduce_ok (h : Begun loading k r.number w₀ w) (ht : (w.catalog.block target).IsComplete)
    (hx : (r.introduce name target location).run w = (.ok u, w')) :
    Begun loading k r.number w₀ w' ∧ w.catalog.KeepsComplete w'.catalog := by
  refine updateBlock_ok h hx fun b hb => ?_
  unfold Block.introduce at hb
  split at hb
  · cases hb
  cases hb
  refine h.of_linked (h.toLinked.addLink ht rfl (fun m hm => ?_) h.exportsSelf) rfl
  cases hm with
  | reference name' hm =>
    rcases mem_of_mem_insert hm with heq | hm
    · exact .inl (congrArg Prod.snd heq)
    · exact .inr (.reference name' hm)
  | base hm => exact .inr (.base hm)
  | implements hm => exact .inr (.implements hm)
  | exported name' hname hm => exact .inr (.exported name' hname hm)

theorem offer_ok (h : Begun loading k r.number w₀ w) {origin : Option (Nat × String)}
    (ho : ∀ e ∈ origin, (w.catalog.block e.1).IsComplete) {names : String × String}
    (hx : (r.offer origin location names).run w = (.ok u, w')) :
    Begun loading k r.number w₀ w' ∧ w.catalog.KeepsComplete w'.catalog := by
  obtain ⟨target, w₁, hexp, hx⟩ := run_bind_ok hx
  obtain ⟨rfl, hfound⟩ := exported_eq_ok hexp
  have ht : (w.catalog.block target).IsComplete := by
    cases origin with
    | none => exact h.complete _ (.reference _ (mem_of_find? hfound))
    | some e => exact h.sound.isComplete_of_export? (ho e rfl) hfound
  refine updateBlock_ok h hx fun b hb => ?_
  unfold Block.offer at hb
  split at hb
  · cases hb
  split at hb
  · cases hb
  rename_i hself _
  cases hb
  refine h.of_linked (h.toLinked.addLink ht rfl (fun m hm => ?_) fun m hm => ?_) rfl
  · cases hm with
    | reference name' hm => exact .inr (.reference name' hm)
    | base hm => exact .inr (.base hm)
    | implements hm => exact .inr (.implements hm)
    | exported name' hname hm =>
      rcases mem_of_mem_insert hm with heq | hm
      · exact .inl (congrArg Prod.snd heq)
      · exact .inr (.exported name' hname hm)
  · rcases mem_of_mem_insert hm with heq | hm
    · exact absurd (congrArg Prod.fst heq).symm hself
    · exact h.exportsSelf m hm

/-- **References and exports** that are read with success are those of complete blocks. -/
theorem readAtRule_ok (hk : k ∈ loading) (hload : load.Loads loading)
    (h : Begun loading k r.number w₀ w) {head : AtHead}
    (hx : (r.readAtRule load head).run w = (.ok u, w')) : Begun loading k r.number w₀ w' := by
  unfold readAtRule at hx
  split at hx
  · unfold readReference at hx
    split at hx
    · obtain ⟨m, w₁, hm, hx⟩ := run_bind_ok hx
      obtain ⟨h₁, hm⟩ := load_ok hk hload h hm
      split at hx
      · exact (introduce_ok h₁ hm hx).1
      refine (forM_ok (fun _ w₂ => Begun loading k r.number w₀ w₂ ∧
        (w₂.catalog.block m).IsComplete) ?_ hx ⟨h₁, hm⟩).1
      rintro done names rest s s' - ⟨hs, hm⟩ hstep
      obtain ⟨target, hfound, hstep⟩ := importExport_eq_ok hstep
      obtain ⟨hs', hkeep⟩ := introduce_ok hs (hs.sound.isComplete_of_export? hm hfound) hstep
      exact ⟨hs', hkeep.isComplete hm⟩
    · cases hx
  · split at hx
    · have hoffers : ∀ (origin : Option (Nat × String)) (names : List (String × String)) w₁,
          Begun loading k r.number w₀ w₁ → (∀ e ∈ origin, (w₁.catalog.block e.1).IsComplete) →
          (names.forM (r.offer origin head.location)).run w₁ = (.ok u, w') →
          Begun loading k r.number w₀ w' := by
        intro origin names w₁ h₁ ho hx
        refine (forM_ok (fun _ w₂ => Begun loading k r.number w₀ w₂ ∧
          ∀ e ∈ origin, (w₂.catalog.block e.1).IsComplete) ?_ hx ⟨h₁, ho⟩).1
        rintro done pair rest s s' - ⟨hs, ho⟩ hstep
        obtain ⟨hs', hkeep⟩ := offer_ok hs ho hstep
        exact ⟨hs', fun e he => hkeep.isComplete (ho e he)⟩
      unfold readExport at hx
      split at hx
      · cases hx
      dsimp only at hx
      split at hx
      · obtain ⟨m, w₁, hm, hx⟩ := run_bind_ok hx
        obtain ⟨h₁, hm⟩ := load_ok hk hload h hm
        obtain ⟨origin, w₂, hp, hx⟩ := run_bind_ok hx
        cases hp
        refine hoffers _ _ _ h₁ ?_ hx
        simpa using hm
      · obtain ⟨origin, w₂, hp, hx⟩ := run_bind_ok hx
        cases hp
        exact hoffers _ _ _ h (by simp) hx
    · cases hx
      exact h

end BlockReader

/-! ## The phases of reading -/

theorem Block.Reflects.congr {b b' : Block} {file : String} (h : b.Reflects file rules)
    (hn : b'.number = b.number) (ho : b'.objects = b.objects) : b'.Reflects file rules := by
  obtain ⟨number, _, _, _, _, objects, _, _, _, _, _, _, _⟩ := b
  obtain ⟨number', _, _, _, _, objects', _, _, _, _, _, _, _⟩ := b'
  obtain rfl : number' = number := hn
  obtain rfl : objects' = objects := ho
  exact ⟨⟨h.wellFormed.root, h.wellFormed.states, h.wellFormed.find⟩, h.namesReadable, h.knows,
    h.mirrors⟩

namespace BlockReader

open Workspace

section

variable (h : Linked loading k r.number w₀ w)

include h

theorem reference_ok (hx : (r.reference name location).run w = (.ok target, w')) :
    w = w' ∧ (w.catalog.block r.number).reference? name = some target ∧
      (w.catalog.block target).IsComplete := by
  obtain ⟨heq, hfound⟩ := reference_eq_ok hx
  exact ⟨heq, hfound, h.complete _ (.reference _ (mem_of_find? hfound))⟩

theorem readBase_ok (hx : (r.readBase name location).run w = (.ok u, w')) :
    Linked loading k r.number w₀ w' := by
  obtain ⟨base, w₁, href, hx⟩ := run_bind_ok hx
  obtain ⟨rfl, -, hbase⟩ := reference_ok h href
  obtain ⟨w₁, w₂, hget, hx⟩ := run_bind_ok hx
  cases hget
  dsimp only at hx
  split at hx
  · cases hx
  split at hx
  · cases hx
  cases hx
  refine h.addLink hbase rfl (fun m hm => ?_) h.exportsSelf
  cases hm with
  | reference name' hm => exact .inr (.reference name' hm)
  | base hm => exact .inl (Option.some.inj hm).symm
  | implements hm => exact .inr (.implements hm)
  | exported name' hname hm => exact .inr (.exported name' hname hm)

theorem readImplements_ok {value : String}
    (hx : (r.readImplements value location).run w = (.ok u, w')) :
    Linked loading k r.number w₀ w' := by
  refine forM_ok (fun _ w₁ => Linked loading k r.number w₀ w₁) ?_ hx h
  rintro done piece rest s s' - hs hstep
  obtain ⟨target, w₁, href, hstep⟩ := run_bind_ok hstep
  obtain ⟨rfl, -, htarget⟩ := reference_ok hs href
  cases hstep
  obtain ⟨l, hpromise, hl⟩ : ∃ l, (s.catalog.block r.number).promise target
      = { s.catalog.block r.number with implements := l } ∧
      ∀ m ∈ l, m = target ∨ m ∈ (s.catalog.block r.number).implements := by
    unfold Block.promise
    split
    · exact ⟨_, rfl, fun m hm => .inr hm⟩
    · exact ⟨_, rfl, fun m hm => by simpa [or_comm] using hm⟩
  refine hs.addLink htarget (by rw [hpromise]; rfl) (fun m hm => ?_)
    (by rw [hpromise]; exact hs.exportsSelf)
  rw [hpromise] at hm
  cases hm with
  | reference name hm => exact .inr (.reference name hm)
  | base hm => exact .inr (.base hm)
  | implements hm => exact (hl m hm).imp_right .implements
  | exported name hname hm => exact .inr (.exported name hname hm)

theorem readRootDeclaration_ok {isRoot : Bool} {d : Declaration}
    (hx : (r.readRootDeclaration isRoot d).run w = (.ok u, w')) :
    Linked loading k r.number w₀ w' := by
  unfold readRootDeclaration at hx
  dsimp only at hx
  split at hx
  · split at hx
    · exact h.of_changesOnly
        ((r.ordinary_readName (φ := Linked.linkData) (fun _ _ _ => rfl) _ _).of_ok hx).toChangesOnly
    · split at hx
      · exact readBase_ok h hx
      · exact readImplements_ok h hx
  · cases hx

theorem readRootDeclarations_ok (hx : (r.readRootDeclarations rule).run w = (.ok u, w')) :
    Linked loading k r.number w₀ w' := by
  unfold readRootDeclarations at hx
  dsimp only at hx
  split at hx
  · obtain ⟨selectors, w₁, hsel, hx⟩ := run_bind_ok hx
    obtain rfl : w = w₁ := (r.ordinary_selectors (R := Eq) _).of_ok hsel
    exact forM_ok (fun _ w₁ => Linked loading k r.number w₀ w₁)
      (fun _ _ _ _ _ _ hs hstep => readRootDeclaration_ok hs hstep) hx h
  · cases hx
    exact h

end

/-! ## What the selectors name -/

theorem sees_of_checkForeign (hl : Linked loading k r.number w₀ w) {path : ObjectPath}
    (hp : path.block = some name) {isKey : Bool}
    (h : (r.checkForeign path name isKey selector location).run w = (.ok u, w')) :
    ∃ id, w.catalog.Sees r.number path id := by
  obtain ⟨-, ⟨target, htarget⟩, id, hid, hglobal⟩ := checkForeign_ok h
  have hcomplete := hl.complete target (.reference name (mem_of_find? htarget))
  simp only [named?, hp, htarget] at hid
  obtain ⟨m, hm, hfind⟩ := exists_of_findSome?_eq_some hid
  have hmc := hl.sound.isComplete_of_mem hcomplete hm
  obtain ⟨hblock, -, -⟩ := (hl.sound.orderly hmc).find? hfind rfl
  exact ⟨id, .foreign hp htarget (hl.sound.grounded hcomplete) hid (hblock ▸ hmc) hglobal⟩

/-- The block that is read keeps its links and advances. -/
structure Proceeds (r : BlockReader) (loading : List String) (k : String) (w₀ w w' : Workspace) :
    Prop where
  linked : Linked loading k r.number w₀ w'
  advances : r.Advances w w'
  view : w.catalog.KeepsView w'.catalog r.number

theorem Proceeds.trans {w₁ : Workspace} (h : r.Proceeds loading k w₀ w w₁)
    (h' : r.Proceeds loading k w₀ w₁ w') : r.Proceeds loading k w₀ w w' :=
  ⟨h'.linked, h.advances.trans h'.advances,
    fun m hm => (h'.view.complete m (h.view.complete.isComplete hm)).trans (h.view.complete m hm),
    h'.view.references.trans h.view.references,
    fun path id hf => h'.view.finds path id (h.view.finds path id hf)⟩

section

variable (hl : Linked loading k r.number w₀ w) (hr : r.Ready w)

include hl hr

theorem Proceeds.refl : r.Proceeds loading k w₀ w w :=
  ⟨hl, hr.refl, fun _ _ => rfl, rfl, fun _ _ hf => hf⟩

theorem readCompound_reads {isKey : Bool} {compound : Compound} (hc : compound.IsNulFree)
    {found : Option ObjectId}
    (h : (r.readCompound selector isKey location compound).run w = (.ok found, w')) :
    r.Proceeds loading k w₀ w w' ∧ w'.catalog.Reads r.number compound := by
  have hchanges := (r.ordinary_readCompound_of (R := EditsOnly Linked.linkData r.number)
    (r.leads_obtainObject fun _ _ => rfl) selector isKey location compound).of_ok h
  have hchanges := hchanges.toChangesOnly
  obtain ⟨ha, path, rest, hpath, hfound⟩ := readCompound_ok hr hc h
  refine ⟨⟨hl.of_changesOnly hchanges, ha, hl.keepsComplete hchanges,
    congrArg (·.2.1) hchanges.kept, fun _ _ hf => ha.2.grows.find? hr.wellFormed hf⟩, ?_⟩
  obtain ⟨id, -, hlocal, hf⟩ | ⟨name, hname, rfl, hforeign⟩ := hfound
  · exact ⟨path, rest, id, hpath, .own hlocal hf⟩
  · obtain ⟨id, hid⟩ := sees_of_checkForeign hl hname hforeign
    exact ⟨path, rest, id, hpath, hid⟩

theorem readSelector_reads (hs : selector.IsNulFree) {found : Option (ObjectId × Option String)}
    (h : (r.readSelector location selector).run w = (.ok found, w')) :
    r.Proceeds loading k w₀ w w' ∧
      ∀ compound ∈ selector.compounds, w'.catalog.Reads r.number compound := by
  obtain ⟨_, w₁, hctx, h⟩ := run_bind_ok h
  obtain ⟨key, w₂, hkey, h⟩ := run_bind_ok h
  cases h
  obtain ⟨h₁, hcontext⟩ : r.Proceeds loading k w₀ w w₁ ∧
      ∀ p ∈ selector.context, w₁.catalog.Reads r.number p.1 := by
    refine forM_ok (fun done w₁ => r.Proceeds loading k w₀ w w₁ ∧
      ∀ p ∈ done, w₁.catalog.Reads r.number p.1) ?_ hctx ⟨.refl hl hr, by simp⟩
    rintro done p rest s s' hsplit ⟨hp, hreads⟩ hstep
    obtain ⟨found, hread, -⟩ := run_map_ok hstep
    have hfree : p.1.IsNulFree :=
      hs p.1 (mem_append_left _ (mem_map.2 ⟨p, by simp [hsplit], rfl⟩))
    obtain ⟨hp', hread'⟩ := readCompound_reads hp.linked (hr.advances hp.advances) hfree hread
    refine ⟨hp.trans hp', fun q hq => ?_⟩
    rcases mem_append.1 hq with hq | hq
    · exact (hreads q hq).keep hp'.view
    · rw [mem_singleton.1 hq]
      exact hread'
  obtain ⟨h₂, hkey'⟩ := readCompound_reads h₁.linked (hr.advances h₁.advances)
    (hs selector.key (by simp [Selector.compounds])) hkey
  refine ⟨h₁.trans h₂, fun compound hc => ?_⟩
  rcases mem_append.1 hc with hc | hc
  · obtain ⟨p, hp, rfl⟩ := mem_map.1 hc
    exact (hcontext p hp).keep h₂.view
  · rw [mem_singleton.1 hc]
    exact hkey'

theorem readSelectors_reads {selectors : List Selector}
    (hparse : Selector.parseList rule.selector = .ok selectors)
    {found : List (Option (ObjectId × Option String))}
    (h : (selectors.mapM (r.readSelector rule.location)).run w = (.ok found, w')) :
    r.Proceeds loading k w₀ w w' ∧ w'.catalog.ReadsRule r.number rule := by
  have hfree := Selector.isNulFree_of_parseList hparse
  suffices H : r.Proceeds loading k w₀ w w' ∧
      ∀ s ∈ selectors, ∀ compound ∈ s.compounds, w'.catalog.Reads r.number compound from
    ⟨H.1, selectors, hparse, H.2⟩
  refine mapM_ok (fun done _ w₁ => r.Proceeds loading k w₀ w w₁ ∧
    ∀ s ∈ done, ∀ compound ∈ s.compounds, w₁.catalog.Reads r.number compound) ?_ h
    ⟨.refl hl hr, by simp⟩
  rintro done _ s rest w₁ found w₂ hsplit ⟨hp, hreads⟩ hstep
  obtain ⟨hp', hread⟩ := readSelector_reads hp.linked (hr.advances hp.advances)
    (hfree s (by simp [hsplit])) hstep
  refine ⟨hp.trans hp', fun s' hs' compound hc => ?_⟩
  rcases mem_append.1 hs' with hs' | hs'
  · exact (hreads s' hs' compound hc).keep hp'.view
  · rw [mem_singleton.1 hs'] at hc
    exact hread compound hc

end

/-- What is known of the block that is read, where `rules` are the rules that are read already. -/
structure Holds (r : BlockReader) (sheet : Stylesheet) (rules : List Rule) (w : Workspace) :
    Prop where
  canDebug : ∀ head ∈ sheet.nodes.filterMap head?, head.name = "block-debug" →
    (w.catalog.block r.number).CanDebug head
  readsRules : ∀ rule ∈ rules, w.catalog.ReadsRule r.number rule
  reflects : (w.catalog.block r.number).Reflects r.filename rules

/-- It is a matter of the complete blocks, and of the objects and references of the block itself. -/
theorem Holds.congr (h : r.Holds sheet rules w) (hk : w.catalog.KeepsComplete w'.catalog)
    (hn : (w'.catalog.block r.number).number = (w.catalog.block r.number).number)
    (ho : (w'.catalog.block r.number).objects = (w.catalog.block r.number).objects)
    (hr : (w'.catalog.block r.number).references = (w.catalog.block r.number).references) :
    r.Holds sheet rules w' := by
  have hreflects := h.reflects.congr hn ho
  have hgrows : (w.catalog.block r.number).GrowsTo (w'.catalog.block r.number) :=
    .of_objects_eq hn ho
  exact ⟨fun head hhead hname => (h.canDebug head hhead hname).congr hr,
    fun rule hrule => (h.readsRules rule hrule).keep
      ⟨hk, hr, fun _ _ hf => hgrows.find? h.reflects.wellFormed hf⟩, hreflects⟩

theorem checkDebug_ok (hl : Linked loading k r.number w₀ w) {head : AtHead}
    (h : (r.checkDebug head).run w = (.ok u, w')) (hname : head.name = "block-debug") :
    (w.catalog.block r.number).CanDebug head := by
  unfold checkDebug at h
  rw [if_pos hname] at h
  split at h
  · cases h
  rename_i request hrequest
  refine ⟨request, hrequest, ?_⟩
  split at h
  · obtain ⟨target, href, -⟩ := run_map_ok h
    exact .inr ⟨target, (reference_ok hl href).2.1⟩
  · rename_i hself
    exact .inl (by simpa using hself)

theorem Holds.readRule (h : r.Holds sheet rules w) (hl : Linked loading k r.number w₀ w)
    (hx : (r.readRule rule).run w = (.ok u, w')) :
    Linked loading k r.number w₀ w' ∧ r.Holds sheet (rules ++ [rule]) w' := by
  have hc := (r.ordinary_readRule (φ := Linked.linkData) (fun _ _ => rfl) rule).of_ok hx
  have hl' := hl.of_changesOnly hc.toChangesOnly
  have hr : r.Ready w := ⟨hl.lt, h.reflects.wellFormed⟩
  obtain ⟨hreflects, selectors, found, w₂, hparse, hmap, hgrows⟩ := readRule_ok hl.lt h.reflects hx
  obtain ⟨hp, hreads⟩ := readSelectors_reads hl hr hparse hmap
  have hreferences : (w'.catalog.block r.number).references
      = (w.catalog.block r.number).references := congrArg (·.2.1) hc.kept
  -- from the selectors on the block only gets more, and the complete blocks stay
  have hview : w₂.catalog.KeepsView w'.catalog r.number := by
    refine ⟨fun m hm => ?_, hreferences.trans hp.view.references.symm, fun path id hf =>
      hgrows.find? hp.advances.2.wellFormed hf⟩
    have hne := hp.linked.ne_of_isComplete hm
    have hc₂ := (LoadM.Ordinary.mapM (R := EditsOnly Linked.linkData r.number)
      fun s => r.ordinary_readSelector_of (r.leads_obtainObject fun _ _ => rfl) _ s).of_ok hmap
    rw [hc.others m hne, hc₂.others m hne]
  refine ⟨hl', fun head hhead hname => (h.canDebug head hhead hname).congr hreferences,
    fun rule' hrule' => ?_, hreflects⟩
  rcases mem_append.1 hrule' with hrule' | hrule'
  · exact ((h.readsRules rule' hrule').keep hp.view).keep hview
  · rw [mem_singleton.1 hrule']
    exact hreads.keep hview

/-- **A block that is read with success** links to complete blocks, has the objects of its rules and
sees what its selectors and its debug statements name. -/
theorem read_ok (hk : k ∈ loading) (hload : load.Loads loading)
    (h : Begun loading k r.number w₀ w) {faultTolerant : Bool}
    (hx : (r.read load faultTolerant sheet).run w = (.ok u, w')) :
    Linked loading k r.number w₀ w' ∧ r.Holds sheet sheet.rules w' := by
  obtain ⟨_, w₁, h₁, hx₁⟩ := run_bind_ok hx
  obtain ⟨_, w₂, h₂, hx₂⟩ := run_bind_ok hx₁
  obtain ⟨_, w₃, h₃, hx₃⟩ := run_bind_ok hx₂
  obtain ⟨_, w₄, h₄, h₅⟩ := run_bind_ok hx₃
  have hs₁ : Begun loading k r.number w₀ w₁ :=
    forM_ok (fun _ w => Begun loading k r.number w₀ w)
      (fun _ _ _ _ _ _ hs hstep => readAtRule_ok hk hload hs hstep) h₁ h
  obtain ⟨rfl, hdebug⟩ : w₂ = w₁ ∧ ∀ head ∈ sheet.nodes.filterMap head?,
      head.name = "block-debug" → (w₁.catalog.block r.number).CanDebug head := by
    refine forM_ok (fun done w => w = w₁ ∧ ∀ head ∈ done, head.name = "block-debug" →
      (w₁.catalog.block r.number).CanDebug head) ?_ h₂ ⟨rfl, by simp⟩
    rintro done head rest s s' - ⟨rfl, hdone⟩ hstep
    refine ⟨((r.ordinary_checkDebug (R := Eq) head).of_ok hstep).symm, fun head' hhead' hname => ?_⟩
    rcases mem_append.1 hhead' with hhead' | hhead'
    · exact hdone head' hhead' hname
    · rw [mem_singleton.1 hhead'] at hname ⊢
      exact checkDebug_ok hs₁.toLinked hstep hname
  -- no object is made and no block becomes known before the rules are read
  obtain ⟨hs₃, hsame⟩ : Linked loading k r.number w₀ w₃ ∧
      w₂.EditsOnly (fun b => (b.objects, b.references)) r.number w₃ := by
    refine forM_ok (fun _ w => Linked loading k r.number w₀ w ∧
      w₂.EditsOnly (fun b => (b.objects, b.references)) r.number w) ?_ h₃
      ⟨hs₁.toLinked, Std.Refl.refl _⟩
    rintro done rule rest s s' - ⟨hs, hsame⟩ hstep
    exact ⟨readRootDeclarations_ok hs hstep, IsTrans.trans _ _ _ hsame
      ((r.leads_readRootDeclarations (fun _ _ _ => rfl) (fun _ _ => rfl) (fun _ _ => rfl)
        rule).of_ok hstep)⟩
  obtain ⟨hobjects, hreferences⟩ := Prod.mk.inj hsame.kept
  have hholds : r.Holds sheet [] w₃ :=
    ⟨fun head hhead hname => (hdebug head hhead hname).congr hreferences, by simp,
      Block.reflects_nil (hobjects.trans hs₁.objects)⟩
  obtain ⟨hs₄, hholds₄⟩ : Linked loading k r.number w₀ w₄ ∧ r.Holds sheet sheet.rules w₄ :=
    forM_ok (fun done w => Linked loading k r.number w₀ w ∧ r.Holds sheet done w)
      (fun _ _ _ _ _ _ hs hstep => hs.2.readRule hs.1 hstep) h₄ ⟨hs₃, hholds⟩
  have hc := (r.ordinary_checkImplementations (φ := fun b => (Linked.linkData b, b.objects))
    (fun _ _ => rfl) faultTolerant).of_ok h₅
  obtain ⟨hkept, ho⟩ := Prod.mk.inj hc.kept
  have hl : Linked loading k r.number w₀ w' := hs₄.of_changesOnly { hc.toChangesOnly with kept := hkept }
  exact ⟨hl, hholds₄.congr (hs₄.keepsComplete hc.toChangesOnly)
    (congrArg (·.1.1) hkept) ho (congrArg (·.2.1) hkept)⟩

end BlockReader

/-! ## The declarations about the block itself -/

def Stylesheet.rootDeclarations (sheet : Stylesheet) : List Declaration :=
  sheet.rules.flatMap fun r => r.declarations.filter fun d => rootOnlyProperties.contains d.property

namespace BlockReader

open Workspace

theorem readAtRules_kept {γ : Type} {φ : Block → γ} {heads : List AtHead}
    (hreferences : ∀ b m, φ { b with references := m } = φ b)
    (hexports : ∀ b m, φ { b with exports := m } = φ b) (hk : k ∈ loading)
    (hload : load.Loads loading) (h : Open loading k r.number w₀ w)
    (hx : (heads.forM (r.readAtRule load)).run w = (.ok u, w')) : Open loading k r.number w₀ w' ∧
      φ (w'.catalog.block r.number) = φ (w.catalog.block r.number) := by
  refine readAtRules_keep (I := fun v => Open loading k r.number w₀ v ∧
    φ (v.catalog.block r.number) = φ (w.catalog.block r.number)) ?_ ?_ hx ⟨h, rfl⟩
  · rintro path m v v' ⟨ho, hv⟩ hrun
    obtain ⟨hs, hg, -⟩ := hload path v ho.sound
    rw [hrun] at hs hg
    exact ⟨ho.of_grows hk hs hg, by rwa [hg.block_eq r.number ho.lt trivial]⟩
  · rintro m head _ v v' ⟨ho, hv⟩ hrun
    have hc := (ordinary_applyAtRule (φ := fun b => (fixed b, φ b))
      (fun b m => Prod.ext rfl (hreferences b m)) (fun b m => Prod.ext rfl (hexports b m)) m head).of_ok
      hrun
    obtain ⟨hfixed, hkept⟩ := Prod.mk.inj hc.kept
    exact ⟨ho.of_changesOnly { hc.toChangesOnly with kept := hfixed }, hkept.trans hv⟩

/-- **What the declarations about the block do to it**, one after the other. -/
theorem readRootDeclarations_induct {J : List Declaration → Block → Prop}
    (hstep : ∀ isRoot done d v v', rootOnlyProperties.contains d.property = true →
      r.number < v.next → J done (v.catalog.block r.number) →
      (r.readRootDeclaration isRoot d).run v = (.ok u, v') →
      J (done ++ [d]) (v'.catalog.block r.number))
    (hlt : r.number < w.next) (h : J [] (w.catalog.block r.number))
    (hx : (sheet.rules.forM r.readRootDeclarations).run w = (.ok u, w')) :
    J sheet.rootDeclarations (w'.catalog.block r.number) := by
  refine (forM_ok (fun done (v : Workspace) => r.number < v.next ∧
    J (done.flatMap fun rule : Rule =>
      rule.declarations.filter fun d => rootOnlyProperties.contains d.property)
      (v.catalog.block r.number)) ?_ hx ⟨hlt, h⟩).2
  rintro done rule rest v v' - hv hrule
  have hroot : ∀ d ∈ rule.declarations.filter fun d => rootOnlyProperties.contains d.property,
      rootOnlyProperties.contains d.property = true := fun d hd => (mem_filter.1 hd).2
  unfold readRootDeclarations at hrule
  dsimp only at hrule
  rw [flatMap_append, flatMap_singleton]
  generalize rule.declarations.filter (fun d => rootOnlyProperties.contains d.property) = ds
    at hrule hroot ⊢
  split at hrule
  · obtain ⟨selectors, v₁, hselectors, hrule⟩ := run_bind_ok hrule
    obtain rfl : v = v₁ := (r.ordinary_selectors (R := Eq) rule).of_ok hselectors
    refine forM_ok (fun done' (v : Workspace) => r.number < v.next ∧
      J (_ ++ done') (v.catalog.block r.number)) ?_ hrule (by rwa [append_nil])
    rintro done' d rest v v' rfl ⟨hlt, hv⟩ hd
    rw [← append_assoc]
    exact ⟨hlt.trans_eq (r.leads_readRootDeclaration (φ := fun _ => ()) (fun _ _ _ => rfl)
      (fun _ _ => rfl) (fun _ _ => rfl) _ _ |>.of_ok hd).length.symm,
      hstep _ _ d v v' (hroot d (by simp)) hlt hv hd⟩
  · rename_i hempty
    cases hrule
    obtain rfl : ds = [] := by simpa using hempty
    rwa [append_nil]

end BlockReader

end StyleBlocks
