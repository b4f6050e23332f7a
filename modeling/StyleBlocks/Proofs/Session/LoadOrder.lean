import StyleBlocks.Proofs.Session.BlockNames
import StyleBlocks.Proofs.Session.Finality
import StyleBlocks.Proofs.Session.Twins

/-!
# The order of requests

Where all requests of two sessions over one library succeed, a file that is loaded in both makes the
same block in both, up to the numbers of blocks and up to the names that were taken before.  If no two
blocks of a session ask for one name, every block has the name that it asked for, and the file is
compiled to the same stylesheet in both sessions.

Main result: `Session.compile_of_load_orders`.
-/

namespace StyleBlocks

open BlockReader Block

variable {lib : Library} {loading : List String} {s : Session} {m n : Nat}

/-! ## Histories -/

/-- How a block came to be read: its file was begun in the workspace `w` and read to its end in the
workspace `v`, whose complete blocks came to be read in the same way, and has stayed as it is since
then. -/
inductive Library.History (lib : Library) : Catalog → Nat → Prop
  | intro {g : Catalog} {n : Nat} {k : String} {file : SourceFile} {sheet : Stylesheet}
      {deps loading : List String} {w₀ w v : Workspace}
      (fetched : lib.source.fetch k = .ok file)
      (parsed : lib.readStylesheet k file = .ok (sheet, deps))
      (begun : Workspace.Begun (loading ++ [k]) k n w₀ w)
      (new : (w.catalog.block n).drawn = (Block.new n k (nameFromFile k)).drawn)
      (read : (BlockReader.read ⟨n, lib.source.displayName k⟩ (lib.loadFrom loading k)
        lib.options.faultTolerant sheet).run w = (.ok (), v))
      (earlier : ∀ m, (v.catalog.block m).IsComplete → History lib v.catalog m)
      (kept : v.catalog.KeepsComplete g) (drawn : (g.block n).drawn = (v.catalog.block n).drawn)
      (complete : (g.block n).stylesheet = some sheet) : History lib g n

theorem Block.portrait_new {ident : Nat → String} {k name : String} (h : ident n = k) :
    (Block.new n k name).portrait ident = ⟨k, [.new ":scope" .root], .empty,
      SortedMap.empty.insert selfExport k, none⟩ := by
  rw [← h]
  rfl

namespace Library

open Workspace

variable {g g' : Catalog} {n n' : Nat}

theorem loadAlike_loadFrom (lib : Library) (loading loading' : List String) (k : String) :
    LoadAlike (loading ++ [k]) (loading' ++ [k]) (lib.loadFrom loading k)
      (lib.loadFrom loading' k) := by
  rintro path w w' m m' v v' ⟨hw, hw'⟩ hx hy
  have hm := lib.identifier_of_load _ _ w hw (m := m) (congrArg Prod.fst hx)
  have hm' := lib.identifier_of_load _ _ w' hw' (m := m') (congrArg Prod.fst hy)
  rw [loadFrom] at hx hy
  rw [hx] at hm
  rw [hy] at hm'
  exact hm'.trans hm.symm

namespace History

theorem keep (h : lib.History g n) (hk : g.KeepsComplete g') : lib.History g' n := by
  cases h with
  | intro fetched parsed begun new read earlier kept drawn complete =>
    have hn : g'.block n = g.block n := hk n (isComplete_of_stylesheet complete)
    exact .intro fetched parsed begun new read earlier (kept.trans hk) (by rw [hn, drawn])
      (by rw [hn, complete])

/-- **A file makes blocks of one portrait.**  Two blocks of one file that came to be read have the same
portrait and the same stylesheet. -/
theorem agree (h : lib.History g n) (h' : lib.History g' n')
    (hid : g'.identifierOf n' = g.identifierOf n) :
    g'.portrait n' = g.portrait n ∧ (g'.block n').stylesheet = (g.block n).stylesheet := by
  induction h generalizing g' n' with
  | @intro g n k file sheet deps loading w₀ w v fetched parsed begun new read earlier kept
      drawn complete ih =>
    cases h' with
    | @intro _ _ k' file' sheet' deps' loading' w₀' w' v' fetched' parsed' begun' new' read'
        earlier' kept' drawn' complete' =>
      have hload := lib.loads_loadFrom loading k
      have hload' := lib.loads_loadFrom loading' k'
      obtain ⟨hl, -⟩ := read_ok (r := ⟨n, _⟩) (by simp) hload begun read
      obtain ⟨hl', -⟩ := read_ok (r := ⟨n', _⟩) (by simp) hload' begun' read'
      -- the blocks are of one file, which is fetched and parsed in one way
      have hk : g.identifierOf n = k := (congrArg Prod.fst drawn).trans hl.identifier
      have hk' : g'.identifierOf n' = k' := (congrArg Prod.fst drawn').trans hl'.identifier
      obtain rfl : k = k' := by rw [← hk, ← hk', hid]
      obtain rfl : file = file' := Except.ok.inj (fetched.symm.trans fetched')
      obtain ⟨rfl, -⟩ := Prod.mk.inj (Except.ok.inj (parsed.symm.trans parsed'))
      have hfirst : Twins n n' w w' := by
        refine ⟨begun.lt, begun'.lt, begun.sound.number n begun.lt,
          begun'.sound.number n' begun'.lt, ?_⟩
        rw [Catalog.portrait, Catalog.portrait, portrait_of_drawn_eq new,
          portrait_of_drawn_eq new', portrait_new begun'.identifier,
          portrait_new begun.identifier]
      have hagree : v.catalog.Agree v'.catalog :=
        fun m m' hm hm' hmid => (ih m hm (earlier' m' hm') hmid).1
      have hfile : (BlockReader.mk n' (lib.source.displayName k)).filename
          = (BlockReader.mk n (lib.source.displayName k)).filename := rfl
      have hlast := twins_of_read (by simp) (by simp) hload hload'
        (lib.loadAlike_loadFrom loading loading' k) hfile begun begun' hfirst read read' hagree
      refine ⟨?_, complete'.trans complete.symm⟩
      rw [hl.portrait_eq drawn kept, hl'.portrait_eq drawn' kept', hlast.portrait]

end History

end Library

/-! ## Loading with success -/

namespace Workspace

variable {k : String} {w₀ w w' : Workspace}

/-- The workspaces have the same complete blocks, names and GUIDs. -/
structure SameComplete (w w' : Workspace) : Prop where
  kept : w.catalog.KeepsComplete w'.catalog
  back : ∀ m, (w'.catalog.block m).IsComplete → (w.catalog.block m).IsComplete
  reservations : w'.reservations = w.reservations

theorem sameComplete_start (w : Workspace) (k : String) : w.SameComplete (w.start k) := by
  refine ⟨fun m hm => ?_, fun m hm => ?_, rfl⟩
  · exact (w.block_start k m).trans (if_neg (Nat.ne_of_lt (Catalog.lt_of_isComplete hm)))
  · obtain ⟨-, heq⟩ := block_start_of_isComplete hm
    rwa [heq] at hm

theorem Open.sameComplete (h : Open loading k n w₀ w) (hc : w.EditsOnly fixed n w') :
    w.SameComplete w' := by
  refine ⟨h.keepsComplete hc.toChangesOnly, fun m hm => ?_, hc.reservations⟩
  have hne := (h.of_changesOnly hc.toChangesOnly).ne_of_isComplete hm
  rwa [hc.others m hne] at hm

end Workspace

namespace Library

open Workspace

variable {I : Workspace → Prop}

/-- **What a load with success keeps**: something that is a matter of the complete blocks and the
names, and that a block which is read, registered and made complete keeps. -/
theorem load_keeps (hsame : ∀ w w', w.SameComplete w' → I w → I w')
    (hfilled : ∀ (loading : List String) (k : String) (file : SourceFile) (sheet : Stylesheet)
      (deps : List String) (n : Nat) (w₀ w₁ w₂ w₃ : Workspace),
      lib.source.fetch k = .ok file →
      lib.readStylesheet k file = .ok (sheet, deps) →
      Begun (loading ++ [k]) k n w₀ w₁ →
      (∃ d, w₁.catalog.block n = { new n k (nameFromFile k) with dependencies := d }) →
      (read ⟨n, lib.source.displayName k⟩ (lib.loadFrom loading k)
        lib.options.faultTolerant sheet).run w₁ = (.ok (), w₂) →
      (lib.register n k).run w₂ = (.ok (), w₃) → I w₂ →
      I (w₃.complete n sheet))
    (loading : List String) (k : String) (w : Workspace) (hw : w.Sound loading) (hI : I w) {m : Nat}
    (hm : ((lib.load loading k).run w).1 = .ok m) : I ((lib.load loading k).run w).2 := by
  revert hw hI m
  refine load_induct (Q := fun loading k w out => w.Sound loading → I w → ∀ {m : Nat},
    out.1 = .ok m → I out.2) ?_ ?_ ?_ ?_ ?_ ?_ loading k w
  · intro _ _ _ _ _ _ _ hm
    cases hm
  · intro _ _ _ _ _ _ _ hI _ _
    exact hI
  · intro _ _ _ _ _ _ _ _ _ _ hm
    cases hm
  · intro _ _ _ _ _ _ _ _ _ _ _ _ hm
    cases hm
  · intro _ _ _ _ _ _ _ _ _ _ _ _ _ _ _ _ _ hm
    cases hm
  intro loading k w file sheet deps w' _ hnone hfetch hparse ih hrun hw hI _ _
  obtain ⟨w₁, w₂, d, hbegun, hedits, hblock, hread, hregister⟩ :=
    fill_eq_ok hw hnone sheet deps hrun
  have hI₁ : I w₁ := hsame _ _ ((begun_start hw hnone).toOpen.sameComplete hedits)
    (hsame _ _ (w.sameComplete_start k) hI)
  refine hfilled loading k file sheet deps _ _ w₁ w₂ w' hfetch hparse hbegun ⟨d, hblock⟩
    hread hregister ?_
  refine (read_keeps (r := ⟨w.next, _⟩)
    (I := fun v => Open (loading ++ [k]) k w.next (w.start k) v ∧
      I v) ?_ ?_ hread ⟨hbegun.toOpen, hI₁⟩).2
  · rintro v v' hc ⟨ho, hv⟩
    exact ⟨ho.of_changesOnly hc.toChangesOnly, hsame v v' (ho.sameComplete hc) hv⟩
  rintro path m v v' ⟨ho, hv⟩ hload
  have hopen := leads_open_load (by simp) (lib.loads_loadFrom loading k) path v ho
  have hkept := ih path v ho.sound hv (m := m) (congrArg Prod.fst hload)
  rw [hload] at hopen hkept
  exact ⟨hopen, hkept⟩

section

variable {k : String} {w₀ w w' : Workspace} {u : Unit}

theorem complete_of_register (h : Linked (loading ++ [k]) k n w₀ w)
    (hx : (lib.register n k).run w = (.ok u, w')) (sheet : Stylesheet) :
    let done := w'.complete n sheet
    (∀ m, m ≠ n → done.catalog.block m = w.catalog.block m) ∧
      (done.catalog.block n).drawn = (w.catalog.block n).drawn ∧
      (done.catalog.block n).stylesheet = some sheet ∧
      (done.catalog.block n).name = (w'.catalog.block n).name := by
  have hc := (leads_register (φ := drawn) (fun _ _ => rfl) (fun _ _ => rfl) fun _ _ _ _ => rfl).of_ok hx
  have hself := block_complete_self (h.lt.trans_eq hc.length.symm) sheet
  refine ⟨fun m hm => (block_complete_of_ne hm sheet).trans (hc.others m hm), ?_, ?_, ?_⟩
  · rw [hself]
    exact hc.kept
  · rw [hself]
  · rw [hself]

end

/-- All complete blocks came to be read. -/
def Records (lib : Library) (w : Workspace) : Prop :=
  ∀ m, (w.catalog.block m).IsComplete → lib.History w.catalog m

/-- **A load with success adds blocks that came to be read.** -/
theorem records_load (lib : Library) (loading : List String) (k : String) (w : Workspace)
    (hw : w.Sound loading) (h : lib.Records w) (hm : ((lib.load loading k).run w).1 = .ok m) :
    lib.Records ((lib.load loading k).run w).2 := by
  refine load_keeps (fun w w' hsame h m hm => (h m (hsame.back m hm)).keep hsame.kept) ?_ loading k w
    hw h hm
  intro loading k file sheet deps n w₀ w₁ w₂ w₃ hfetch hparse hbegun hnew hread hregister h
    m hm
  obtain ⟨hl, -⟩ := read_ok (r := ⟨n, _⟩) (by simp) (lib.loads_loadFrom loading k) hbegun hread
  obtain ⟨hothers, hdrawn, hsheet, -⟩ := complete_of_register hl hregister sheet
  have hkeep : w₂.catalog.KeepsComplete
      (w₃.complete n sheet).catalog :=
    fun m hm => hothers m (hl.ne_of_isComplete hm)
  by_cases hmn : m = n
  · subst hmn
    obtain ⟨d, hd⟩ := hnew
    exact .intro hfetch hparse hbegun (by rw [hd]; rfl) hread h hkeep hdrawn hsheet
  · rw [hothers m hmn] at hm
    exact (h m hm).keep hkeep

end Library

/-! ## Names -/

/-- Two complete blocks ask for one name. -/
def Catalog.SharesName (g : Catalog) : Prop :=
  ∃ m m', m ≠ m' ∧ (g.block m).IsComplete ∧ (g.block m').IsComplete ∧
    (g.block m).askedName = (g.block m').askedName

/-- Complete blocks have the names that they asked for, and no other names are taken. -/
structure Workspace.NamesAsked (w : Workspace) : Prop where
  name : ∀ m, (w.catalog.block m).IsComplete →
    (w.catalog.block m).name = (w.catalog.block m).askedName
  taken : ∀ x owner, w.reservations.nameOwner? x = some owner →
    ∃ m, (w.catalog.block m).IsComplete ∧ (w.catalog.block m).askedName = x

/-- Blocks have the names that they asked for, unless two asked for one. -/
def Workspace.NamesSettled (w : Workspace) : Prop :=
  w.catalog.SharesName ∨ w.NamesAsked

theorem Catalog.SharesName.keep {g g' : Catalog} (h : g.SharesName) (hk : g.KeepsComplete g') :
    g'.SharesName := by
  obtain ⟨m, m', hne, hm, hm', hasked⟩ := h
  exact ⟨m, m', hne, hk.isComplete hm, hk.isComplete hm', by rw [hk m hm, hk m' hm', hasked]⟩

namespace Workspace

variable {w w' : Workspace}

theorem NamesSettled.of_sameComplete (h : w.NamesSettled) (hsame : w.SameComplete w') :
    w'.NamesSettled := by
  obtain hshared | hasked := h
  · exact .inl (hshared.keep hsame.kept)
  refine .inr ⟨fun m hm => ?_, fun x owner hx => ?_⟩
  · rw [hsame.kept m (hsame.back m hm)]
    exact hasked.name m (hsame.back m hm)
  · rw [hsame.reservations] at hx
    obtain ⟨m, hm, hname⟩ := hasked.taken x owner hx
    exact ⟨m, hsame.kept.isComplete hm, by rw [hsame.kept m hm, hname]⟩

end Workspace

namespace Library

open Workspace

theorem namesSettled_load (lib : Library) (loading : List String) (k : String) (w : Workspace)
    (hw : w.Sound loading) (h : w.NamesSettled) (hm : ((lib.load loading k).run w).1 = .ok m) :
    ((lib.load loading k).run w).2.NamesSettled := by
  refine load_keeps (fun w w' hsame h => h.of_sameComplete hsame) ?_ loading k w hw h hm
  intro loading k file sheet deps n w₀ w₁ w₂ w₃ _ _ hbegun hnew hread hregister h
  have hload := lib.loads_loadFrom loading k
  obtain ⟨hl, -⟩ := read_ok (r := ⟨n, _⟩) (by simp) hload hbegun hread
  obtain ⟨hothers, hdrawn, hsheet, hname⟩ := complete_of_register hl hregister sheet
  set done := w₃.complete n sheet
  have hkeep : w₂.catalog.KeepsComplete done.catalog :=
    fun m hm => hothers m (hl.ne_of_isComplete hm)
  have hcomplete : (done.catalog.block n).IsComplete := isComplete_of_stylesheet hsheet
  -- the block asks for the name that reading has found
  have hasked : (done.catalog.block n).askedName = (w₂.catalog.block n).name := by
    obtain ⟨d, hd⟩ := hnew
    have hfound := name_of_read (r := ⟨n, _⟩) (by simp) hload hbegun (by rw [hd]; rfl) hread
    have hid : (done.catalog.block n).identifier = k := (congrArg Prod.fst hdrawn).trans hl.identifier
    rw [hfound, hd, askedName, hsheet, hid]
    rfl
  obtain hshared | hnames := h
  · exact .inl (hshared.keep hkeep)
  obtain ⟨-, unique, w', hreserve, -, hunique, hidentify⟩ := register_eq_ok hl.lt hregister
  obtain ⟨rfl, -⟩ | ⟨⟨owner, howner, -⟩, -⟩ := Reservations.eq_or_numbered_of_reserveName hreserve
  · refine .inr ⟨fun m hm => ?_, fun x owner hx => ?_⟩
    · by_cases hmn : m = n
      · rw [hmn, hasked, hname, ← hunique]
        exact ((leads_identify (φ := name) (fun _ _ => rfl) fun _ _ _ _ => rfl).of_ok hidentify).kept
      · rw [hothers m hmn] at hm ⊢
        exact hnames.name m hm
    obtain ⟨_, _, hguid, -⟩ := identify_eq_ok hidentify
    rw [show done.reservations = w₃.reservations from rfl,
      Reservations.nameOwner?_reserveGuid hguid] at hx
    obtain hold | ⟨rfl, -⟩ := Reservations.nameOwner?_of_reserveName hreserve hx
    · obtain ⟨m, hm, hx⟩ := hnames.taken x owner hold
      exact ⟨m, hkeep.isComplete hm, by rw [hkeep m hm, hx]⟩
    · exact ⟨n, hcomplete, hasked⟩
  · -- the name is taken, so another block has asked for it
    obtain ⟨m, hm, hname⟩ := hnames.taken _ _ howner
    refine .inl ⟨m, n, hl.ne_of_isComplete hm, hkeep.isComplete hm, hcomplete, ?_⟩
    rw [hkeep m hm, hname, hasked]

end Library

/-! ## Sessions -/

/-- No two blocks to which identifiers lead ask for one name. -/
def Catalog.AsksApart (g : Catalog) : Prop :=
  ∀ k k' m m', g.byIdentifier? k = some m → g.byIdentifier? k' = some m' →
    (g.block m).askedName = (g.block m').askedName → m = m'

theorem Catalog.asksApart_of_identifiers {g : Catalog}
    (h : (g.identifiers.all fun e => g.identifiers.all fun e' =>
      (g.block e.2).askedName != (g.block e'.2).askedName || e.2 == e'.2) = true) : g.AsksApart := by
  have hmem : ∀ {k : String} {m : Nat}, g.byIdentifier? k = some m → (k, m) ∈ g.identifiers := by
    intro k m hm
    obtain ⟨l₁, l₂, hl, -⟩ := List.lookup_eq_some_iff.1 hm
    simp [hl]
  intro k k' m m' hm hm' hasked
  have := List.all_eq_true.1 (List.all_eq_true.1 h _ (hmem hm)) _ (hmem hm')
  simpa [hasked] using this

namespace Session

variable {results : List (Except BlockError Nat)} {asked : List (Option String × String)}

def fresh (lib : Library) : Session :=
  ⟨lib, .empty lib.options, []⟩

theorem sound_fresh (lib : Library) : (fresh lib).workspace.Sound [] :=
  (Reachable.new lib.options lib.source).sound

theorem requestAll_ok_induct {lib : Library} {I : Workspace → Prop}
    (hload : ∀ k w m, w.Sound [] → I w → ((lib.load [] k).run w).1 = .ok m → I ((lib.load [] k).run w).2)
    {w : Workspace} {s : Session} (h : requestAll ⟨lib, w, []⟩ asked = (results, s))
    (hok : ∀ r ∈ results, r.isOk) (hw : w.Sound []) (hI : I w) :
    s.library = lib ∧ s.workspace.Sound [] ∧ I s.workspace := by
  induction asked generalizing w results with
  | nil =>
    cases h
    exact ⟨rfl, hw, hI⟩
  | cons q others ih =>
    rw [requestAll, requestFrom, load_eq] at h
    obtain ⟨rfl, rfl⟩ := Prod.mk.inj h
    have hfirst : ((lib.load [] (lib.identifier q.1 q.2)).run w).1.isOk := hok _ List.mem_cons_self
    refine ih rfl (fun r hr => hok r (List.mem_cons_of_mem _ hr))
      (Library.loads_load _ _ _ _ hw).1 ?_
    cases hresult : ((lib.load [] (lib.identifier q.1 q.2)).run w).1 with
    | error e =>
      rw [hresult] at hfirst
      cases hfirst
    | ok m => exact hload _ _ m hw hI hresult

theorem settled_of_requestAll (h : (fresh lib).requestAll asked = (results, s))
    (hok : ∀ r ∈ results, r.isOk) :
    s.library = lib ∧ s.workspace.Sound [] ∧ lib.Records s.workspace ∧ s.workspace.NamesSettled := by
  have hnone : ∀ m, ¬((Workspace.empty lib.options).catalog.block m).IsComplete := by
    intro m hm
    cases m <;> cases hm
  refine requestAll_ok_induct (I := fun w => lib.Records w ∧ w.NamesSettled) ?_ h hok
    (sound_fresh lib) ⟨fun m hm => absurd hm (hnone m), .inr ⟨fun m hm => absurd hm (hnone m), ?_⟩⟩
  · intro k w m hw ⟨hrecords, hnames⟩ hm
    exact ⟨lib.records_load _ k w hw hrecords hm, lib.namesSettled_load _ k w hw hnames hm⟩
  · intro x owner hx
    cases hx

end Session

/-! ## The blocks of two sessions -/

namespace Workspace

variable {w w' : Workspace} {m n : Nat}

/-- The block `m` is complete, and the other workspace has a complete block of the same file. -/
def Meets (w w' : Workspace) (m : Nat) : Prop :=
  (w.catalog.block m).IsComplete ∧ ∃ m', (w'.catalog.block m').IsComplete ∧
    w'.catalog.identifierOf m' = w.catalog.identifierOf m

/-- The number to which an identifier leads. -/
def numberOf (w : Workspace) (k : String) : Nat :=
  (w.catalog.byIdentifier? k).getD 0

/-- The number that the block of the same file has in another workspace. -/
def numberIn (w w' : Workspace) (m : Nat) : Nat :=
  w'.numberOf (w.catalog.identifierOf m)

theorem Sound.numberOf_eq (h : w.Sound loading) (hm : (w.catalog.block m).IsComplete) :
    w.numberOf (w.catalog.identifierOf m) = m := by
  rw [numberOf, Catalog.identifierOf, h.listed m hm]
  rfl

section

variable (hw : w.Sound []) (hw' : w'.Sound []) (hr : lib.Records w) (hr' : lib.Records w')

include hw'

theorem Meets.counterpart (h : w.Meets w' m) :
    (w'.catalog.block (w.numberIn w' m)).IsComplete ∧
      w'.catalog.identifierOf (w.numberIn w' m) = w.catalog.identifierOf m := by
  obtain ⟨-, m', hm', hid⟩ := h
  rw [numberIn, ← hid, hw'.numberOf_eq hm']
  exact ⟨hm', rfl⟩

include hr hr'

theorem Meets.agree (h : w.Meets w' m) :
    w'.catalog.portrait (w.numberIn w' m) = w.catalog.portrait m ∧
      (w'.catalog.block (w.numberIn w' m)).stylesheet = (w.catalog.block m).stylesheet := by
  obtain ⟨hcomplete, hid⟩ := h.counterpart hw'
  exact (hr m h.1).agree (hr' _ hcomplete) hid

include hw

theorem Meets.references (h : w.Meets w' m) :
    (w'.catalog.block (w.numberIn w' m)).references
        = (w.catalog.block m).references.mapValues (w.numberIn w') ∧
      ∀ e ∈ (w.catalog.block m).references.entries, w.Meets w' e.2 := by
  obtain ⟨hcomplete, -⟩ := h.counterpart hw'
  have hsame := congrArg Portrait.references (h.agree hw' hr hr').1
  have hgrounded : ∀ e ∈ (w'.catalog.block (w.numberIn w' m)).references.entries,
      (w'.catalog.block e.2).IsComplete :=
    fun e he => ((hw'.grounded hcomplete).of_linksTo (.reference e.1 he)).isComplete
  constructor
  · calc (w'.catalog.block (w.numberIn w' m)).references
        = (w'.catalog.block (w.numberIn w' m)).references.mapValues (w'.numberIn w') :=
          (SortedMap.mapValues_id _).symm.trans
            (SortedMap.mapValues_congr _ fun e he => (hw'.numberOf_eq (hgrounded e he)).symm)
      _ = (w'.catalog.portrait (w.numberIn w' m)).references.mapValues w'.numberOf :=
          (SortedMap.mapValues_mapValues _ _ _).symm
      _ = (w.catalog.portrait m).references.mapValues w'.numberOf := by rw [hsame]
      _ = (w.catalog.block m).references.mapValues (w.numberIn w') :=
          SortedMap.mapValues_mapValues _ _ _
  · intro e he
    refine ⟨((hw.grounded h.1).of_linksTo (.reference e.1 he)).isComplete, ?_⟩
    have hmem : (e.1, w.catalog.identifierOf e.2) ∈ (w.catalog.portrait m).references.entries :=
      List.mem_map.2 ⟨e, he, rfl⟩
    rw [← hsame] at hmem
    obtain ⟨e', he', heq⟩ := List.mem_map.1 hmem
    exact ⟨e'.2, hgrounded e' he', congrArg Prod.snd heq⟩

theorem Meets.base? (h : w.Meets w' m) :
    (w'.catalog.block (w.numberIn w' m)).base? = (w.catalog.block m).base?.map (w.numberIn w') ∧
      ∀ t, (w.catalog.block m).base? = some t → w.Meets w' t := by
  obtain ⟨hcomplete, -⟩ := h.counterpart hw'
  have hsame := congrArg Portrait.base (h.agree hw' hr hr').1
  simp only [Catalog.portrait, portrait] at hsame
  unfold Block.base?
  cases hb : (w.catalog.block m).base with
  | none =>
    rw [hb] at hsame
    rw [Option.map_eq_none_iff.1 hsame]
    exact ⟨rfl, fun t ht => by cases ht⟩
  | some e =>
    rw [hb] at hsame
    obtain ⟨e', he', heq⟩ := Option.map_eq_some_iff.1 hsame
    have hid : w'.catalog.identifierOf e'.2 = w.catalog.identifierOf e.2 := congrArg Prod.snd heq
    have hlink : w'.catalog.LinksTo (w.numberIn w' m) e'.2 := .base (by rw [Block.base?, he']; rfl)
    have hlink' : w.catalog.LinksTo m e.2 := .base (by rw [Block.base?, hb]; rfl)
    have hbase := ((hw'.grounded hcomplete).of_linksTo hlink).isComplete
    constructor
    · rw [he']
      change some e'.2 = some (w'.numberOf (w.catalog.identifierOf e.2))
      rw [← hid, hw'.numberOf_eq hbase]
    · rintro t ht
      cases ht
      exact ⟨((hw.grounded h.1).of_linksTo hlink').isComplete, e'.2, hbase, hid⟩

/-- **The blocks of the files that both have are the same**, up to their numbers, if they have the names
for which they ask. -/
theorem renumbered_of_records
    (hn : ∀ m, (w.catalog.block m).IsComplete →
      (w.catalog.block m).name = (w.catalog.block m).askedName)
    (hn' : ∀ m, (w'.catalog.block m).IsComplete →
      (w'.catalog.block m).name = (w'.catalog.block m).askedName) :
    Catalog.Renumbered (w.Meets w') (w.numberIn w') w.catalog w'.catalog where
  injective m n hm hn heq := by
    have hid := (hm.counterpart hw').2
    rw [heq, (hn.counterpart hw').2] at hid
    rw [← hw.numberOf_eq hm.1, ← hw.numberOf_eq hn.1, hid]
  orderly m hm := hw.orderly hm.1
  orderly' m hm := hw'.orderly (hm.counterpart hw').1
  block m hm := by
    obtain ⟨hcomplete, hid⟩ := hm.counterpart hw'
    obtain ⟨hportrait, hsheet⟩ := hm.agree hw' hr hr'
    refine ⟨hid, ?_, congrArg Portrait.objects hportrait, (hm.references hw hw' hr hr').1,
      (hm.base? hw hw' hr hr').1, hsheet⟩
    have hid' : (w'.catalog.block (w.numberIn w' m)).identifier = (w.catalog.block m).identifier := hid
    rw [hn m hm.1, hn' _ hcomplete, askedName, askedName, hsheet, hid']
  reference m hm := (hm.references hw hw' hr hr').2
  base m t hm := (hm.base? hw hw' hr hr').2 t
  chain m hm := ⟨_, (hw.chain hm.1).1⟩

end

end Workspace

namespace Session

theorem name_eq_askedName (hw : s.workspace.Sound []) (h : s.workspace.NamesSettled)
    (hapart : s.catalog.AsksApart) (hm : (s.catalog.block m).IsComplete) :
    (s.catalog.block m).name = (s.catalog.block m).askedName := by
  obtain ⟨m₁, m₂, hne, hm₁, hm₂, hasked⟩ | hnames := h
  · exact absurd (hapart _ _ m₁ m₂ (hw.listed m₁ hm₁) (hw.listed m₂ hm₂) hasked) hne
  · exact hnames.name m hm

/-- **What a file is compiled to is not a matter of the order of requests.**  If two sessions over one
library ask for blocks in any order, all their requests succeed, and in neither of them two blocks ask
for one name, then a file that is loaded in both is compiled to the same stylesheet in both, with the
same errors and the same output, and has the same index, but for the number of its block. -/
theorem compile_of_load_orders {lib : Library} {asked asked' : List (Option String × String)}
    {results results' : List (Except BlockError Nat)} {s s' : Session}
    (h : (fresh lib).requestAll asked = (results, s))
    (h' : (fresh lib).requestAll asked' = (results', s'))
    (hok : ∀ r ∈ results, r.isOk) (hok' : ∀ r ∈ results', r.isOk)
    (hapart : s.catalog.AsksApart) (hapart' : s'.catalog.AsksApart) {k : String} {n n' : Nat}
    (hn : s.catalog.byIdentifier? k = some n) (hn' : s'.catalog.byIdentifier? k = some n') :
    s'.compile n' = s.compile n ∧
      ClassIndex.ofBlock s'.catalog n' = (ClassIndex.ofBlock s.catalog n).inBlock n' ∧
      (ClassIndex.ofBlock s'.catalog n').render = (ClassIndex.ofBlock s.catalog n).render := by
  obtain ⟨hlib, hw, hrecords, hnames⟩ := settled_of_requestAll h hok
  obtain ⟨hlib', hw', hrecords', hnames'⟩ := settled_of_requestAll h' hok'
  have hsame := Workspace.renumbered_of_records hw hw' hrecords hrecords'
    (fun m hm => name_eq_askedName hw hnames hapart hm)
    fun m hm => name_eq_askedName hw' hnames' hapart' hm
  -- the file leads to complete blocks, and the second one stands for the first
  obtain ⟨hid, -, hloading | hcomplete⟩ := hw.known k n hn
  · cases hloading
  obtain ⟨hid', -, hloading | hcomplete'⟩ := hw'.known k n' hn'
  · cases hloading
  have hmeets : s.workspace.Meets s'.workspace n := ⟨hcomplete, n', hcomplete', hid'.trans hid.symm⟩
  have hnumber : s.workspace.numberIn s'.workspace n = n' := by
    rw [Workspace.numberIn, Catalog.identifierOf, hid, Workspace.numberOf]
    exact congrArg (Option.getD · 0) hn'
  have hindex := hsame.ofBlock_eq hmeets
  rw [hnumber] at hindex
  refine ⟨?_, hindex, (congrArg _ hindex).trans (ClassIndex.render_inBlock _ _)⟩
  rw [Session.compile, Session.compile, hlib, hlib', ← hnumber]
  exact compileLoaded_renumber hsame hmeets _

theorem pages_load_orders :
    let first := (fresh pages.library).requestAll [(none, "page.css")]
    let second := (fresh pages.library).requestAll [(none, "base.css"), (none, "side.css")]
    (first.1.all Except.isOk && second.1.all Except.isOk) = true ∧
      first.2.catalog.byIdentifier? "page.css" = some 0 ∧
      second.2.catalog.byIdentifier? "page.css" = some 2 ∧
      (first.2.catalog.identifiers.all fun e => first.2.catalog.identifiers.all fun e' =>
        (first.2.catalog.block e.2).askedName != (first.2.catalog.block e'.2).askedName ||
          e.2 == e'.2) = true ∧
      (second.2.catalog.identifiers.all fun e => second.2.catalog.identifiers.all fun e' =>
        (second.2.catalog.block e.2).askedName != (second.2.catalog.block e'.2).askedName ||
          e.2 == e'.2) = true := by
  decide +kernel

theorem compile_of_load_orders_pages :
    let first := (fresh pages.library).requestAll [(none, "page.css")]
    let second := (fresh pages.library).requestAll [(none, "base.css"), (none, "side.css")]
    first.2.catalog.byIdentifier? "page.css" = some 0 ∧
      second.2.catalog.byIdentifier? "page.css" = some 2 ∧
      second.2.compile 2 = first.2.compile 0 ∧
      ClassIndex.ofBlock second.2.catalog 2 = (ClassIndex.ofBlock first.2.catalog 0).inBlock 2 ∧
      (ClassIndex.ofBlock second.2.catalog 2).render
        = (ClassIndex.ofBlock first.2.catalog 0).render := by
  intro first second
  obtain ⟨hok, hfirst, hsecond, hapart, hapart'⟩ := pages_load_orders
  obtain ⟨hok, hok'⟩ := Bool.and_eq_true_iff.1 hok
  exact ⟨hfirst, hsecond, compile_of_load_orders rfl rfl (List.all_eq_true.1 hok)
    (List.all_eq_true.1 hok') (Catalog.asksApart_of_identifiers hapart)
    (Catalog.asksApart_of_identifiers hapart') hfirst hsecond⟩

end Session

end StyleBlocks
