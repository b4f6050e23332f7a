import StyleBlocks.Proofs.Session.Loading

/-!
# What a block promises and does not have

A block that implements others is checked once it is read: the path of each of their objects has to
lead to an object of the block or of an ancestor.  What is lacking is one error, which is thrown or
recorded.

Main result: `Session.Reachable.implementations_exact`.
-/

namespace StyleBlocks

open List Catalog

variable {loading : List String} {k : String}

/-- The error says that a block lacks what it implements. -/
def BlockError.isImplementation : BlockError → Bool
  | .implementation .. => true
  | _ => false

def Declaration.interfaces (d : Declaration) : List String :=
  if d.property = "implements" then
    (FileName.pieces (· == ',') (trim d.value.toList)).map fun piece => String.ofList (trim piece)
  else []

def Stylesheet.interfaces (sheet : Stylesheet) : List String :=
  sheet.rootDeclarations.flatMap Declaration.interfaces

namespace Catalog

variable {g g' : Catalog} {n : Nat}

/-- The objects of the block `i`, in the order in which they were made, with paths that lead to no
object of the block `n` or of an ancestor. -/
def absent (g : Catalog) (n i : Nat) : List ObjectId :=
  (g.block i).ids.filter fun x => ∀ m ∈ n :: g.ancestors n, (g.block m).find? (g.pathTo x) = none

/-- What the block lacks, for each block that it implements and does not cover: the objects, and the
block's name. -/
def lacking (g : Catalog) (n : Nat) : List (List String × String) :=
  ((g.block n).implements.map fun i => ((g.absent n i).map g.sourceOf, (g.block i).name)).filter
    (·.1 ≠ [])

theorem named?_pathTo_eq_none {x : ObjectId} : g.named? n (g.pathTo x) = none ↔
    ∀ m ∈ n :: g.ancestors n, (g.block m).find? (g.pathTo x) = none := by
  rw [named?, show (g.pathTo x).block = none from Block.block_pathTo x.index]
  exact findSome?_eq_none_iff

theorem missingImplementations_eq (g : Catalog) (n : Nat) :
    BlockReader.missingImplementations g n = g.lacking n := by
  rw [lacking, ← filterMap_eq_filter, filterMap_map]
  refine filterMap_congr fun i _ => ?_
  have habsent : (g.block i).ids.filter (fun x => (g.named? n (g.pathTo x)).isNone) = g.absent n i :=
    filter_congr fun x _ => by
      rw [Bool.eq_iff_iff, Option.isNone_iff_eq_none, named?_pathTo_eq_none, decide_eq_true_iff]
  simp only [habsent]
  cases h : g.absent n i <;> simp [Option.guard, h]

def promises (b : Block) :
    Nat × List StyleObject × Option (String × Nat) × List Nat × SortedMap String Nat :=
  (b.number, b.objects, b.base, b.implements, b.references)

theorem lacking_keep (hk : g.KeepsComplete g')
    (hlinks : ∀ m, g.LinksTo n m → g.Grounded m ∧ (g.block m).number = m)
    (hn : promises (g'.block n) = promises (g.block n)) : g'.lacking n = g.lacking n := by
  obtain ⟨hnumber, hobjects, hbase, himplements, -⟩ : _ ∧ _ ∧ _ ∧ _ ∧ _ := by
    simpa [promises] using hn
  obtain ⟨l, hl, hl', hcomplete⟩ : ∃ l, g.ancestors n = l ∧ g'.ancestors n = l ∧
      ∀ m ∈ l, (g.block m).IsComplete := by
    have hbase' : (g'.block n).base? = (g.block n).base? := by rw [Block.base?, hbase]; rfl
    obtain ⟨l, hchain, hchain', hl⟩ : ∃ l, g.Chain n l ∧ g'.Chain n l ∧
        ∀ m ∈ l, (g.block m).IsComplete := by
      cases hb : (g.block n).base? with
      | none => exact ⟨[], .last hb, .last (hbase'.trans hb), by simp⟩
      | some m =>
        obtain ⟨l, hchain, hl⟩ := (hlinks m (.base hb)).1.chain
        have hm := (hlinks m (.base hb)).1.isComplete
        exact ⟨m :: l, .step hb hchain, .step (hbase'.trans hb) (hk.chain hchain hm hl),
          forall_mem_cons.2 ⟨hm, hl⟩⟩
    exact ⟨l, hchain.ancestors_eq fun m hm => lt_of_isComplete (hl m hm),
      hchain'.ancestors_eq fun m hm => lt_of_isComplete (hk.isComplete (hl m hm)), hl⟩
  have hfind : ∀ path, ∀ m ∈ n :: l, (g'.block m).find? path = (g.block m).find? path := by
    intro path m hm
    rcases mem_cons.1 hm with rfl | hm
    · simp only [Block.find?, Block.class?, Block.root, Block.state?, Block.object?, hnumber, hobjects]
    · rw [hk m (hcomplete m hm)]
  rw [lacking, lacking, himplements]
  congr 1
  refine map_congr_left fun i hi => ?_
  obtain ⟨hgrounded, hi'⟩ := hlinks i (.implements hi)
  have hblock := hk i hgrounded.isComplete
  have hpath : ∀ x ∈ (g.block i).ids, g'.pathTo x = g.pathTo x := by
    intro x hx
    obtain ⟨j, -, rfl⟩ := mem_map.1 hx
    rw [pathTo, pathTo, hi', hblock]
  have habsent : g'.absent n i = g.absent n i := by
    rw [absent, absent, hblock, hl, hl']
    refine filter_congr fun x hx => ?_
    rw [hpath x hx]
    exact decide_eq_decide.2 (forall₂_congr fun m hm => by rw [hfind _ m hm])
  rw [habsent, hblock]
  congr 1
  refine map_congr_left fun x hx => ?_
  rw [sourceOf, sourceOf, hpath x (mem_of_mem_filter hx)]

/-- The block was checked: what it lacks is recorded as one error, and is nothing if errors are not
tolerated. -/
structure Checked (faultTolerant : Bool) (g : Catalog) (n : Nat) : Prop where
  strict : faultTolerant = false → g.lacking n = []
  recorded : ∃ file, (g.block n).errors.filter BlockError.isImplementation = if g.lacking n = [] then []
    else [.implementation (g.lacking n) (some ⟨some file, .start⟩)]
  promised : ∀ sheet, (g.block n).stylesheet = some sheet → (g.block n).implements
    = (sheet.interfaces.filterMap (g.block n).references.find?).eraseDups

theorem Checked.keep {faultTolerant : Bool} (h : g.Checked faultTolerant n) (hk : g.KeepsComplete g')
    (hn : (g.block n).IsComplete)
    (hlinks : ∀ m, g.LinksTo n m → g.Grounded m ∧ (g.block m).number = m) :
    g'.Checked faultTolerant n := by
  have hblock := hk n hn
  have hlacking := lacking_keep hk hlinks (by rw [hblock])
  refine ⟨?_, ?_, ?_⟩
  · rw [hlacking]
    exact h.strict
  · rw [hlacking, hblock]
    exact h.recorded
  · rw [hblock]
    exact h.promised

end Catalog

/-! ## Reading -/

namespace Workspace

variable {n m : Nat} {w₀ w : Workspace}

theorem Sound.linksTo (h : w.Sound loading) (hn : (w.catalog.block n).IsComplete)
    (hm : w.catalog.LinksTo n m) : w.catalog.Grounded m ∧ (w.catalog.block m).number = m := by
  have hgrounded := (h.grounded hn).of_linksTo hm
  exact ⟨hgrounded, h.number m (lt_of_isComplete hgrounded.isComplete)⟩

theorem Linked.linksTo (h : Linked loading k n w₀ w) (m : Nat) (hm : w.catalog.LinksTo n m) :
    w.catalog.Grounded m ∧ (w.catalog.block m).number = m :=
  ⟨h.sound.grounded (h.complete m hm), h.sound.number m (lt_of_isComplete (h.complete m hm))⟩

end Workspace

/-- The block has promised to implement the blocks with some names, and has recorded no errors. -/
structure Block.Promised (b : Block) (names : List String) : Prop where
  errors : b.errors = []
  implements : b.implements = (names.filterMap b.references.find?).eraseDups

namespace Block.Promised

variable {b b' : Block} {names : List String}

def view (b : Block) : SortedMap String Nat × List BlockError × List Nat :=
  (b.references, b.errors, b.implements)

theorem congr (h : b.Promised names) (hb : view b' = view b) : b'.Promised names := by
  obtain ⟨hreferences, hb⟩ := Prod.mk.inj hb
  obtain ⟨herrors, himplements⟩ := Prod.mk.inj hb
  exact ⟨herrors.trans h.errors, by rw [himplements, hreferences, h.implements]⟩

theorem promise (h : b.Promised names) {name : String} {target : Nat}
    (ht : b.reference? name = some target) : (b.promise target).Promised (names ++ [name]) := by
  have hnames : ((names ++ [name]).filterMap b.references.find?).eraseDups
      = (names.filterMap b.references.find? ++ [target]).eraseDups := by
    rw [filterMap_append, filterMap_cons, show b.references.find? name = _ from ht, filterMap_nil]
  have himplements := h.implements
  generalize names.filterMap b.references.find? = l at himplements hnames
  unfold Block.promise
  split
  · rename_i hmem
    have hmem : target ∈ l := by simpa [himplements] using hmem
    exact ⟨h.errors, by rw [hnames, himplements]; simp [eraseDups_append, removeAll, hmem]⟩
  · rename_i hmem
    have hmem : target ∉ l := by simpa [himplements] using hmem
    refine ⟨h.errors, ?_⟩
    dsimp only
    rw [hnames, himplements]
    simp [eraseDups_append, removeAll, hmem, eraseDups_cons]

end Block.Promised

namespace BlockReader

open Workspace

variable {r : BlockReader} {load : LoadStep} {w₀ w w' : Workspace} {sheet : Stylesheet} {u : Unit}

def readContents (r : BlockReader) (load : LoadStep) (sheet : Stylesheet) : LoadM Unit := do
  (sheet.nodes.filterMap head?).forM (r.readAtRule load)
  (sheet.nodes.filterMap head?).forM r.checkDebug
  sheet.rules.forM r.readRootDeclarations
  sheet.rules.forM r.readRule

theorem read_eq_check (r : BlockReader) (load : LoadStep) (faultTolerant : Bool) (sheet : Stylesheet) :
    r.read load faultTolerant sheet
      = r.readContents load sheet >>= fun _ => r.checkImplementations faultTolerant := by
  simp only [read, readContents, bind_assoc]

def lackError (r : BlockReader) (w : Workspace) : BlockError :=
  .implementation (w.catalog.lacking r.number) (some (r.place .start))

theorem run_checkImplementations (r : BlockReader) (faultTolerant : Bool) (w : Workspace) :
    (r.checkImplementations faultTolerant).run w = if w.catalog.lacking r.number = [] then (.ok (), w)
      else if faultTolerant then (.ok (), w.modifyBlock r.number (·.keepError (r.lackError w)))
      else (.error (r.lackError w), w) := by
  unfold checkImplementations lackError
  rw [run_bind, show (get : LoadM Workspace).run w = (.ok w, w) from rfl]
  simp only [missingImplementations_eq]
  cases h : w.catalog.lacking r.number <;> cases faultTolerant <;> rfl

variable {names : List String}

theorem promised_readImplements (hlt : r.number < w.next)
    (h : (w.catalog.block r.number).Promised names) {value : String} {location : Location}
    (hx : (r.readImplements value location).run w = (.ok u, w')) :
    (w'.catalog.block r.number).Promised (names ++
      (FileName.pieces (· == ',') value.toList).map fun piece => String.ofList (trim piece)) := by
  refine (forM_ok (fun done (v : Workspace) => r.number < v.next ∧
    (v.catalog.block r.number).Promised
      (names ++ done.map fun piece => String.ofList (trim piece))) ?_ hx ⟨hlt, by simpa using h⟩).2
  rintro done piece rest v v' - ⟨hlt, hv⟩ hstep
  obtain ⟨target, v₁, href, hstep⟩ := run_bind_ok hstep
  obtain ⟨rfl, htarget⟩ := reference_eq_ok href
  cases hstep
  have hblock : (v.modifyBlock r.number (·.promise target)).catalog.block r.number
      = (v.catalog.block r.number).promise target := block_modifyBlock_self hlt
  rw [hblock, map_append, ← append_assoc]
  exact ⟨hlt.trans_eq length_modifyBlock.symm, hv.promise htarget⟩

theorem promised_readRootDeclaration {isRoot : Bool} {d : Declaration}
    (hd : rootOnlyProperties.contains d.property = true) (hlt : r.number < w.next)
    (h : (w.catalog.block r.number).Promised names)
    (hx : (r.readRootDeclaration isRoot d).run w = (.ok u, w')) :
    (w'.catalog.block r.number).Promised (names ++ d.interfaces) := by
  unfold readRootDeclaration at hx
  dsimp only at hx
  rw [Declaration.interfaces]
  split at hx
  · split at hx
    · rename_i hname
      rw [if_neg (by rw [hname]; decide), append_nil]
      exact h.congr ((r.ordinary_readName (fun _ _ _ => rfl) _ _).of_ok hx).kept
    · split at hx
      · rename_i hextends
        rw [if_neg (by rw [hextends]; decide), append_nil]
        exact h.congr ((r.leads_readBase (fun _ _ => rfl) _ _).of_ok hx).kept
      · rename_i hname hextends
        rw [if_pos (by simpa [rootOnlyProperties, hname, hextends] using hd)]
        simpa using promised_readImplements hlt h hx
  · cases hx

theorem promised_of_readContents (hk : k ∈ loading) (hload : load.Loads loading)
    (h : Begun loading k r.number w₀ w) (hnew : (w.catalog.block r.number).errors = [] ∧
      (w.catalog.block r.number).implements = [])
    (hx : (r.readContents load sheet).run w = (.ok u, w')) :
    (w'.catalog.block r.number).Promised sheet.interfaces := by
  obtain ⟨_, w₁, h₁, hx⟩ := run_bind_ok hx
  obtain ⟨_, w₂, h₂, hx⟩ := run_bind_ok hx
  obtain ⟨_, w₃, h₃, h₄⟩ := run_bind_ok hx
  obtain ⟨hopen, hkept⟩ := readAtRules_kept (φ := fun b => (b.errors, b.implements)) (fun _ _ => rfl)
    (fun _ _ => rfl) hk hload h.toOpen h₁
  obtain ⟨herrors, himplements⟩ := Prod.mk.inj hkept
  obtain rfl : w₁ = w₂ := (LoadM.Ordinary.forM (R := Eq) r.ordinary_checkDebug).of_ok h₂
  have hp := readRootDeclarations_induct
    (J := fun done b => b.Promised (done.flatMap Declaration.interfaces))
    (fun _ done d v v' hd hlt hv hstep => by
      simpa using promised_readRootDeclaration hd hlt hv hstep) hopen.lt
    ⟨herrors.trans hnew.1, himplements.trans hnew.2⟩ h₃
  exact hp.congr ((LoadM.Ordinary.forM fun rule => r.ordinary_readRule (fun _ _ => rfl)
    rule).of_ok h₄).kept

theorem read_checks (hk : k ∈ loading) (hload : load.Loads loading)
    (h : Begun loading k r.number w₀ w) (hnew : (w.catalog.block r.number).errors = [] ∧
      (w.catalog.block r.number).implements = []) {faultTolerant : Bool}
    (hx : (r.read load faultTolerant sheet).run w = (.ok u, w')) :
    (faultTolerant = false → w'.catalog.lacking r.number = []) ∧
      ((w'.catalog.block r.number).errors = if w'.catalog.lacking r.number = [] then []
        else [.implementation (w'.catalog.lacking r.number) (some (r.place .start))]) ∧
      (w'.catalog.block r.number).implements
        = (sheet.interfaces.filterMap (w'.catalog.block r.number).references.find?).eraseDups := by
  obtain ⟨hl, -⟩ := read_ok hk hload h hx
  rw [read_eq_check] at hx
  obtain ⟨_, w₁, hcontents, hcheck⟩ := run_bind_ok hx
  have hp := promised_of_readContents hk hload h hnew hcontents
  have hc := (r.ordinary_checkImplementations (φ := promises) (fun _ _ => rfl)
    faultTolerant).of_ok hcheck
  -- the check does not change what the block lacks
  have hlacking : w₁.catalog.lacking r.number = w'.catalog.lacking r.number :=
    lacking_keep (fun m hm => (hc.others m (hl.ne_of_isComplete hm)).symm) hl.linksTo hc.kept.symm
  obtain ⟨-, -, -, himplements, hreferences⟩ : _ ∧ _ ∧ _ ∧ _ ∧ _ := by
    simpa [promises] using hc.kept
  rw [himplements, hreferences, hp.implements]
  generalize w'.catalog.lacking r.number = missing at hlacking ⊢
  rw [run_checkImplementations, lackError, hlacking] at hcheck
  split at hcheck
  · rename_i hempty
    cases hcheck
    exact ⟨fun _ => hempty, by rw [if_pos hempty, hp.errors], rfl⟩
  rename_i hlacks
  split at hcheck
  · rename_i htolerant
    cases hcheck
    refine ⟨fun hstrict => ?_, ?_, rfl⟩
    · rw [htolerant] at hstrict
      cases hstrict
    · have hblock := block_modifyBlock_self (f := (·.keepError
        (.implementation missing (some (r.place .start))))) (hl.lt.trans_eq hc.length)
      rw [if_neg hlacks]
      exact (congrArg Block.errors hblock).trans (by rw [Block.keepError, hp.errors]; rfl)
  · cases hcheck

end BlockReader

/-! ## Loading -/

namespace Library

open Workspace BlockReader

variable {lib : Library} {w w' : Workspace} {sheet : Stylesheet} {deps : List String}

theorem checked_fill (hw : w.Sound loading) (hnone : w.catalog.byIdentifier? k = none) {u : Unit}
    (h : lib.fillNew w k (lib.loadFrom loading k) sheet deps = (.ok u, w')) :
    Checked lib.options.faultTolerant (w'.complete w.next sheet).catalog w.next := by
  have hload := lib.loads_loadFrom loading k
  obtain ⟨w₁, w₂, d, hb₁, -, hblock₁, hread, hregister⟩ := fill_eq_ok hw hnone sheet deps h
  set n := w.next
  obtain ⟨hl, -⟩ := read_ok (r := ⟨n, _⟩) (by simp) hload hb₁ hread
  obtain ⟨hstrict, herrors, himplements⟩ := read_checks (r := ⟨n, _⟩) (by simp) hload hb₁
    (by rw [hblock₁]; exact ⟨rfl, rfl⟩) hread
  have hc := (leads_register (φ := fun b => (promises b, b.errors.filter BlockError.isImplementation))
    (fun _ _ => rfl) (fun _ _ => rfl) fun b _ _ _ => by
      simp [promises, Block.keepError, BlockError.isImplementation]).of_ok hregister
  set done := w'.complete n sheet
  have hdone : done.catalog.block n = { w'.catalog.block n with stylesheet := some sheet } :=
    block_complete_self (hl.lt.trans_eq hc.length.symm) sheet
  obtain ⟨hpromises, herrors'⟩ := Prod.mk.inj hc.kept
  -- neither do its name and its GUID
  have hlacking : done.catalog.lacking n = w₂.catalog.lacking n := by
    refine lacking_keep (fun m hm => ?_) hl.linksTo ?_
    · have hne := hl.ne_of_isComplete hm
      exact (block_complete_of_ne hne sheet).trans (hc.others m hne)
    · rw [hdone]
      exact hpromises
  refine ⟨?_, ⟨lib.source.displayName k, ?_⟩, fun sheet' hsheet => ?_⟩
  · rw [hlacking]
    exact hstrict
  · rw [hlacking, hdone, herrors', herrors]
    split <;> rfl
  · rw [hdone] at hsheet ⊢
    obtain rfl := Option.some.inj hsheet
    obtain ⟨-, -, -, himplements', hreferences'⟩ : _ ∧ _ ∧ _ ∧ _ ∧ _ := by
      simpa [promises] using hpromises
    exact himplements'.trans (himplements.trans (by rw [hreferences']))

/-! ## Failing loads -/

def fillContents (lib : Library) (n : Nat) (k : String) (load : LoadStep) (sheet : Stylesheet)
    (deps : List String) : LoadM Unit := do
  LoadM.modifyBlock n fun b =>
    ((lib.source.dependency? k).toList ++ deps).foldl Block.dependOn b
  readContents ⟨n, lib.source.displayName k⟩ load sheet

/-- Loading the file `k` from the workspace `w` on comes to the check of the block that is read from
the stylesheet, which is made in the workspace `w'`. -/
def ReachesCheck (lib : Library) (loading : List String) (k : String) (sheet : Stylesheet)
    (w w' : Workspace) : Prop :=
  k ∉ loading ∧ w.catalog.byIdentifier? k = none ∧ ∃ file deps,
    lib.source.fetch k = .ok file ∧
    lib.readStylesheet k file = .ok (sheet, deps) ∧
    (lib.fillContents w.next k (lib.loadFrom loading k) sheet deps).run
      (w.start k) = (.ok (), w')

/-- How a load ends whose check is made in the workspace `v`: it fails if something is lacking and
errors are not tolerated, and ends as the registration of the block does otherwise. -/
def afterCheck (lib : Library) (r : BlockReader) (k : String) (v : Workspace) :
    Except BlockError Unit :=
  if v.catalog.lacking r.number = [] then ((lib.register r.number k).run v).1
  else if lib.options.faultTolerant then
    ((lib.register r.number k).run (v.modifyBlock r.number (·.keepError (r.lackError v)))).1
  else .error (r.lackError v)

theorem run_load_of_parsed {file : SourceFile} (hk : k ∉ loading)
    (hnone : w.catalog.byIdentifier? k = none) (hfetch : lib.source.fetch k = .ok file)
    (hparse : lib.readStylesheet k file = .ok (sheet, deps)) :
    ((lib.load loading k).run w).1 = (lib.fillNew w k (lib.loadFrom loading k) sheet deps).1.map
      fun _ => w.next := by
  rw [Library.load, dif_neg hk, run_bind, show (get : LoadM Workspace).run w = (.ok w, w) from rfl]
  dsimp only
  split
  · rename_i hm
    cases hm.symm.trans hnone
  split
  · rename_i hf
    cases hf.symm.trans hfetch
  rename_i file' hf
  obtain rfl : file = file' := Except.ok.inj (hfetch.symm.trans hf)
  unfold retractOnError
  rw [run_tryCatch, run_loadFile, hparse]
  dsimp only
  unfold loadFrom
  rcases lib.fillNew w k _ sheet deps with ⟨_ | _, w'⟩ <;> rfl

/-- **What becomes of a load that comes to the check.** -/
theorem load_of_reachesCheck {v : Workspace} (h : lib.ReachesCheck loading k sheet w v) :
    ((lib.load loading k).run w).1
      = (lib.afterCheck ⟨w.next, lib.source.displayName k⟩ k v).map
        fun _ => w.next := by
  obtain ⟨hk, hnone, file, deps, hfetch, hparse, hreach⟩ := h
  set r : BlockReader := ⟨w.next, lib.source.displayName k⟩
  have hfill : lib.fill r.number k (lib.loadFrom loading k) sheet deps
      = lib.fillContents r.number k (lib.loadFrom loading k) sheet deps >>= fun _ =>
        r.checkImplementations lib.options.faultTolerant >>= fun _ => lib.register r.number k := by
    simp only [fill, fillContents, read_eq_check, bind_assoc]
    rfl
  rw [run_load_of_parsed hk hnone hfetch hparse, fillNew, hfill, run_bind, hreach, afterCheck]
  dsimp only
  rw [run_bind, run_checkImplementations]
  by_cases hempty : v.catalog.lacking r.number = []
  · simp only [if_pos hempty]
  · cases htolerant : lib.options.faultTolerant <;> simp only [if_neg hempty] <;> rfl

theorem promised_of_reachesCheck {v : Workspace} (h : lib.ReachesCheck loading k sheet w v)
    (hw : w.Sound loading) :
    (v.catalog.block w.next).Promised sheet.interfaces := by
  obtain ⟨-, hnone, -, deps, -, -, hreach⟩ := h
  obtain ⟨_, w₁, hdepend, hcontents⟩ := run_bind_ok hreach
  have hkept := ((leads_dependOn (φ := fun b => (b.errors, b.implements)) (fun _ _ => rfl) _ _).of_ok
    hdepend).kept
  rw [block_start, if_pos rfl] at hkept
  exact promised_of_readContents (r := ⟨_, _⟩) (by simp) (lib.loads_loadFrom loading k)
    (begun_dependOn hw hnone hdepend) (Prod.mk.inj hkept) hcontents

end Library

/-! ## Sessions -/

theorem Catalog.lacking_eq_nil {g : Catalog} {n : Nat} : g.lacking n = [] ↔
    ∀ i ∈ (g.block n).implements, ∀ x ∈ (g.block i).ids, (g.named? n (g.pathTo x)).isSome = true := by
  simp only [lacking, filter_eq_nil_iff, forall_mem_map, absent, decide_eq_true_eq, not_not,
    map_eq_nil_iff, ← named?_pathTo_eq_none, Option.isSome_iff_ne_none]

namespace Session

theorem Reachable.allChecked {s : Session} (hs : s.Reachable) :
    Library.AllComplete (Checked s.library.options.faultTolerant) s.workspace := by
  refine hs.workspace_induct (P := fun o => Library.AllComplete (Checked o.faultTolerant))
    (fun _ m hm => ?_) fun _ k w hw ih => ?_
  · cases m <;> cases hm
  · exact Library.allComplete_load (fun _ _ _ _ hw hk hm h => h.keep hk hm fun _ => hw.linksTo hm)
      (fun _ _ _ _ _ _ hw hnone hrun => Library.checked_fill hw hnone hrun) [] k w hw ih

/-- **Blocks are checked against what they implement, exactly.**  In a session that does not tolerate
errors, a block that is loaded finds every object of every block that it implements by its path, in
itself or in an ancestor.  In any session it has recorded one error if it lacks something, and none
otherwise.  The error lists what it lacks: for each block that is implemented and not covered, in the
order of the declarations, the block's objects that are not found, in the order in which they were
made.  A load that comes to the check fails with this error if errors are not tolerated, and does not
fail at the check if they are. -/
theorem Reachable.implementations_exact {s : Session} (hs : s.Reachable) :
    (∀ k n, s.catalog.byIdentifier? k = some n →
      s.catalog.Checked s.library.options.faultTolerant n ∧
      (s.catalog.lacking n = [] ↔ ∀ i ∈ (s.catalog.block n).implements,
        ∀ x ∈ (s.catalog.block i).ids, (s.catalog.named? n (s.catalog.pathTo x)).isSome = true)) ∧
    (∀ loading k sheet w v, s.library.ReachesCheck loading k sheet w v →
      ((s.library.load loading k).run w).1
        = (s.library.afterCheck ⟨w.next, s.library.source.displayName k⟩ k v).map
          (fun _ => w.next) ∧
      (w.Sound loading → (v.catalog.block w.next).implements
        = (sheet.interfaces.filterMap
          (v.catalog.block w.next).references.find?).eraseDups)) ∧
    ∀ missing place, (BlockError.implementation missing place).message
      = "[css-blocks] ImplementationError: " ++ ("Missing implementations for: " ++ "; ".intercalate
        (missing.map fun e => ", ".intercalate e.1 ++ " from " ++ e.2))
        ++ BlockError.placeSuffix place :=
  ⟨fun _ n hn => ⟨hs.allChecked n (hs.isComplete_of_byIdentifier? hn), lacking_eq_nil⟩,
    fun _ _ _ _ _ h => ⟨Library.load_of_reachesCheck h,
      fun hw => (Library.promised_of_reachesCheck h hw).implements⟩, fun _ _ => rfl⟩

/-- A block inherits one class, has another, and lacks a state of that one and a class of a second
block, which is promised twice. -/
def halfCovered (faultTolerant : Bool) : Session :=
  .new { faultTolerant := faultTolerant } ([("one.css", ".a \x7b \x7d .b[state|on] \x7b \x7d"),
    ("two.css", ".c \x7b \x7d"), ("base.css", ".a \x7b \x7d"),
    ("page.css", "@block-reference one from \"one.css\"; @block-reference two from \"two.css\"; " ++
      "@block-reference base from \"base.css\"; :scope \x7b extends: base; " ++
      "implements: two, one; implements: two \x7d .b \x7b \x7d")].foldl
      (fun source file => source.add file.1 file.2 none) .empty)

def halfCovered.lacks : List (List String × String) :=
  [([".c"], "two"), ([".b[state|on]"], "one")]

theorem halfCovered_requests : ((halfCovered true).request "page.css").2.catalog.byIdentifier? "page.css"
      = some 0 ∧
    ((halfCovered true).request "page.css").2.catalog.lacking 0 = halfCovered.lacks := by
  decide +kernel

theorem halfCovered_reachesCheck : ∃ sheet v,
    (halfCovered false).library.ReachesCheck [] "page.css" sheet (halfCovered false).workspace v ∧
      v.catalog.lacking (halfCovered false).workspace.catalog.blocks.length = halfCovered.lacks := by
  have h : (((halfCovered false).library.source.fetch "page.css").toOption.bind fun file =>
      ((halfCovered false).library.readStylesheet "page.css" file).toOption.bind fun p =>
      let out := ((halfCovered false).library.fillContents 0 "page.css"
        ((halfCovered false).library.loadFrom [] "page.css") p.1 p.2).run
        ((halfCovered false).workspace.start "page.css")
      out.1.toOption.map fun _ => out.2.catalog.lacking 0) = some halfCovered.lacks := by
    decide +kernel
  obtain ⟨file, hfile, h⟩ := Option.bind_eq_some_iff.1 h
  obtain ⟨p, hp, h⟩ := Option.bind_eq_some_iff.1 h
  obtain ⟨_, hout, hlacking⟩ := Option.map_eq_some_iff.1 h
  exact ⟨p.1, _, ⟨by simp, rfl, file, p.2, except_toOption_some hfile, except_toOption_some hp,
    Prod.ext (except_toOption_some hout) rfl⟩, hlacking⟩

theorem implementations_exact_halfCovered :
    (∃ file, (((halfCovered true).request "page.css").2.catalog.block 0).errors.filter
      BlockError.isImplementation = [.implementation halfCovered.lacks (some ⟨some file, .start⟩)]) ∧
    (((halfCovered false).library.load [] "page.css").run (halfCovered false).workspace).1
      = .error (.implementation halfCovered.lacks (some ⟨some "page.css", .start⟩)) := by
  obtain ⟨hn, hlacking⟩ := halfCovered_requests
  obtain ⟨sheet, v, hreach, hlacking'⟩ := halfCovered_reachesCheck
  obtain ⟨hblocks, -, -⟩ := Reachable.implementations_exact
    (s := ((halfCovered true).request "page.css").2) (.request none _ (.new _ _))
  obtain ⟨-, hloads, -⟩ := Reachable.implementations_exact (s := halfCovered false) (.new _ _)
  have hlacks : halfCovered.lacks ≠ [] := by decide
  constructor
  · obtain ⟨⟨-, ⟨file, herrors⟩, -⟩, -⟩ := hblocks "page.css" 0 hn
    rw [hlacking, if_neg hlacks] at herrors
    exact ⟨file, herrors⟩
  · rw [(hloads _ _ _ _ _ hreach).1, Library.afterCheck, BlockReader.lackError, hlacking']
    rfl

end Session

end StyleBlocks
