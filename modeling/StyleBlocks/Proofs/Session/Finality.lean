import StyleBlocks.Proofs.Compilation.Renumbering
import StyleBlocks.Proofs.Session.Links

/-!
# Loaded blocks are final

A block that a request has given stays what it is: later requests change neither its record nor
anything that it refers to, so it is compiled to the same stylesheet at any time.

Main result: `Session.Reachable.loaded_final`.
-/

namespace StyleBlocks

namespace Session

/-- Asks for the blocks at some paths, each named by a file or by nobody, one after the other: what the
requests give, and the session after them. -/
def requestAll (s : Session) : List (Option String × String) →
    List (Except BlockError Nat) × Session
  | [] => ([], s)
  | asked :: others =>
    let (result, s) := s.requestFrom asked.1 asked.2
    let (results, s) := s.requestAll others
    (result :: results, s)

variable {s : Session}

theorem requestAll_induct {P : Session → Prop} (hs : P s)
    (step : ∀ s origin path, P s → P (s.requestFrom origin path).2)
    (asked : List (Option String × String)) : P (s.requestAll asked).2 := by
  induction asked generalizing s with
  | nil => exact hs
  | cons q others ih => exact ih (step s q.1 q.2 hs)

theorem Reachable.requestAll (h : s.Reachable) (asked : List (Option String × String)) :
    (s.requestAll asked).2.Reachable :=
  requestAll_induct h (fun _ origin path h => .request origin path h) asked

theorem library_requestAll (asked : List (Option String × String)) :
    (s.requestAll asked).2.library = s.library :=
  requestAll_induct (P := fun t => t.library = s.library) rfl
    (fun t _ _ h => (congrArg (·.2.library) (t.load_eq _)).trans h) asked

theorem Reachable.keepsComplete_requestAll (h : s.Reachable)
    (asked : List (Option String × String)) :
    s.catalog.KeepsComplete (s.requestAll asked).2.catalog := by
  refine (requestAll_induct (P := fun t => t.Reachable ∧ s.catalog.KeepsComplete t.catalog)
    ⟨h, fun _ _ => rfl⟩ ?_ asked).2
  rintro t origin path ⟨ht, hk⟩
  refine ⟨.request origin path ht, ?_⟩
  rw [ht.requestFrom_eq]
  exact hk.trans (Library.loads_load _ _ _ _ ht.sound).2.1.keepsComplete

end Session

/-! ## What a request gives -/

theorem Library.identifier_of_load (lib : Library) (loading : List String) (k : String)
    (w : Workspace) (hw : w.Sound loading) {m : Nat}
    (hm : ((lib.load loading k).run w).1 = .ok m) :
    (((lib.load loading k).run w).2.catalog.block m).identifier = k := by
  revert hw hm
  refine load_induct (Q := fun loading k w out => w.Sound loading → out.1 = .ok m →
    (out.2.catalog.block m).identifier = k) ?_ ?_ ?_ ?_ ?_ ?_ loading k w
  · intro _ _ _ _ _ hm
    cases hm
  · intro _ k w n _ hn hw hm
    cases hm
    exact (hw.known k m hn).1
  · intro _ _ _ _ _ _ _ _ hm
    cases hm
  · intro _ _ _ _ _ _ _ _ _ _ hm
    cases hm
  · intro _ _ _ _ _ _ _ _ _ _ _ _ _ _ _ hm
    cases hm
  · intro loading k w file sheet deps w' _ hnone _ _ _ hrun hw hm
    cases hm
    have hopen := open_fill (lib.loads_loadFrom loading k) hw hnone sheet deps lib
    rw [hrun] at hopen
    rw [Workspace.block_complete_self hopen.lt]
    exact hopen.identifier

theorem Session.Reachable.of_requestFrom {s s' : Session} (hs : s.Reachable)
    {origin : Option String} {path : String} {n : Nat}
    (h : s.requestFrom origin path = (.ok n, s')) :
    (s'.catalog.block n).IsComplete ∧
      s'.catalog.byIdentifier? (s'.library.identifier origin path) = some n := by
  have hresult : (s.requestFrom origin path).1 = .ok n := by rw [h]
  obtain rfl : (s.requestFrom origin path).2 = s' := by rw [h]
  have hafter := hs.request origin path
  rw [hs.requestFrom_eq] at hresult hafter ⊢
  have hcomplete := (Library.loads_load _ _ _ _ hs.sound).2.2 n hresult
  have hidentifier := Library.identifier_of_load _ _ _ _ hs.sound hresult
  refine ⟨hcomplete, ?_⟩
  have hlisted := hafter.sound.listed n hcomplete
  rw [← hlisted]
  exact congrArg _ hidentifier.symm

/-! ## Complete blocks stay -/

theorem Workspace.Sound.renumbered {loading loading' : List String} {w w' : Workspace}
    (h : w.Sound loading) (h' : w'.Sound loading') (hk : w.catalog.KeepsComplete w'.catalog) :
    Catalog.Renumbered (fun m => (w.catalog.block m).IsComplete) id w.catalog w'.catalog where
  injective _ _ _ _ heq := heq
  orderly _ hn := h.orderly hn
  orderly' _ hn := h'.orderly (hk.isComplete hn)
  block n hn := by
    rw [id, hk n hn]
    exact ⟨rfl, rfl, rfl, (SortedMap.mapValues_id _).symm, Option.map_id'.symm, rfl⟩
  reference n hn e he := ((h.grounded hn).of_linksTo (.reference e.1 he)).isComplete
  base n m hn hm := ((h.grounded hn).of_linksTo (.base hm)).isComplete
  chain n hn := ⟨_, (h.chain hn).1⟩

namespace Session

/-- **What a request has given stays as it is.**  Once a request has given the block `n`, then after
any further requests, successful or not, the record of the block is the same, the same request gives
the block again and changes nothing, the block is compiled to the same stylesheet, with the same errors
and the same output, and its index is the same. -/
theorem Reachable.loaded_final {s s' : Session} (hs : s.Reachable) {origin : Option String}
    {path : String} {n : Nat} (h : s.requestFrom origin path = (.ok n, s'))
    (asked : List (Option String × String)) :
    let later := (s'.requestAll asked).2
    later.catalog.block n = s'.catalog.block n ∧
      later.requestFrom origin path = (.ok n, later) ∧
      later.compile n = s'.compile n ∧
      ClassIndex.ofBlock later.catalog n = ClassIndex.ofBlock s'.catalog n := by
  intro later
  have hs' : s'.Reachable := by
    have := Reachable.request origin path hs
    rwa [h] at this
  obtain ⟨hcomplete, hknown⟩ := hs.of_requestFrom h
  have hlater : later.Reachable := hs'.requestAll asked
  have hkeep : s'.catalog.KeepsComplete later.catalog := hs'.keepsComplete_requestAll asked
  have hlibrary : later.library = s'.library := library_requestAll asked
  have hsame := hs'.sound.renumbered hlater.sound hkeep
  refine ⟨hkeep n hcomplete, hlater.requestFrom_of_byIdentifier? ?_, ?_, ?_⟩
  · have hid : (s'.catalog.block n).identifier = s'.library.identifier origin path :=
      (hs'.sound.known _ n hknown).1
    rw [hlibrary, ← hid, ← hkeep n hcomplete]
    exact hlater.sound.listed n (hkeep.isComplete hcomplete)
  · rw [Session.compile, Session.compile, hlibrary]
    exact compileLoaded_renumber hsame hcomplete _
  · exact (hsame.ofBlock_eq hcomplete).trans
      (ClassIndex.inBlock_ofBlock (hs'.sound.orderly hcomplete).number)

/-- A block that extends another one is loaded, before a file that names a missing one and a file that
extends the block. -/
def pages : Session :=
  .ofFiles [("base.css", ".a \x7b color: red \x7d"),
    ("page.css", "@block-reference base from \"base.css\"; :scope \x7b extends: base \x7d " ++
      ".a \x7b color: blue \x7d"),
    ("broken.css", "@block-reference page from \"page.css\"; " ++
      "@block-reference gone from \"gone.css\";"),
    ("side.css", "@block-reference page from \"page.css\"; :scope \x7b extends: page \x7d")] []

theorem pages_requests : (pages.requestFrom none "page.css").1.toOption = some 0 ∧
    ((pages.requestFrom none "page.css").2.requestAll
      [(none, "broken.css"), (none, "side.css")]).1.map Except.toOption = [none, some 3] := by
  decide +kernel

theorem loaded_final_pages :
    let loaded := (pages.requestFrom none "page.css").2
    let later := (loaded.requestAll [(none, "broken.css"), (none, "side.css")]).2
    (pages.requestFrom none "page.css").1 = .ok 0 ∧
      later.catalog.block 0 = loaded.catalog.block 0 ∧
      later.requestFrom none "page.css" = (.ok 0, later) ∧
      later.compile 0 = loaded.compile 0 ∧
      ClassIndex.ofBlock later.catalog 0 = ClassIndex.ofBlock loaded.catalog 0 := by
  have hresult := except_toOption_some pages_requests.1
  exact ⟨hresult, Reachable.loaded_final (reachable_ofFiles _ _) (Prod.ext hresult rfl)
    [(none, "broken.css"), (none, "side.css")]⟩

end Session

end StyleBlocks
