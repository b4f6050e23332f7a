import StyleBlocks.Proofs.Session.Failures

/-!
# The blocks of a session link to complete blocks, in no circle

A block links to blocks that were complete before it was, so links lead in no circle.  Files that
name each other in a circle are found out while they are loaded; the check that no block extends
itself, which comes later, always passes.

Main result: `Session.Reachable.links_grounded`.
-/

namespace StyleBlocks

/-- The error says that a block would extend itself. -/
def BlockError.closesCircle : BlockError → Bool
  | .block (.cyclicBase _) _ => true
  | _ => false

theorem Library.noCircle_load (lib : Library) (loading : List String) (k : String) (w : Workspace)
    (hw : w.Sound loading) (e : BlockError) (w' : Workspace)
    (h : (lib.load loading k).run w = (.error e, w')) : e.closesCircle = false := by
  have hjust := lib.justifies_load loading k w hw e w' h
  unfold BlockError.closesCircle
  split
  · rename_i name place
    exact absurd rfl (hjust.noCircle name place)
  · rfl

/-! ## Sessions -/

namespace Session

theorem Reachable.requestFrom_of_byIdentifier? {s : Session} (hs : s.Reachable)
    {origin : Option String} {path : String} {n : Nat}
    (h : s.catalog.byIdentifier? (s.library.identifier origin path) = some n) :
    s.requestFrom origin path = (.ok n, s) := by
  rw [requestFrom, load, dif_neg (by simp [hs.loading_eq_nil])]
  simp only [h]

/-- **The links of a session.**  After any requests, successful or not, no file is being loaded, and
an identifier leads to a complete block with a GUID.  Each link of such a block leads to another such
block, and no links lead from it back to itself.  Nothing is left of a request once it has ended: the
next one finds the blocks that are there, and no request ever fails because a block would extend
itself.  A load in the midst of others too leaves the files that are being loaded as they were. -/
theorem Reachable.links_grounded {s : Session} (hs : s.Reachable) :
    (s.loading = [] ∧ ∀ (t : Session) (k : String), (t.load k).2.loading = t.loading) ∧
    (∀ k n, s.catalog.byIdentifier? k = some n →
      (s.catalog.block n).IsComplete ∧ (s.catalog.block n).guid ≠ "" ∧
      (∀ m, s.catalog.LinksTo n m →
        m ≠ n ∧ s.catalog.byIdentifier? (s.catalog.block m).identifier = some m) ∧
      ¬Relation.TransGen s.catalog.LinksTo n n) ∧
    ∀ origin path, (s.requestFrom origin path).2.loading = [] ∧
      (∀ n, s.catalog.byIdentifier? (s.library.identifier origin path) = some n →
        s.requestFrom origin path = (.ok n, s)) ∧
      ∀ e, (s.requestFrom origin path).1 = .error e → e.closesCircle = false := by
  refine ⟨⟨hs.loading_eq_nil, fun t k => by rw [t.load_eq]; rfl⟩, fun k n hk => ?_, fun origin path =>
    ⟨(hs.request origin path).loading_eq_nil, fun n => hs.requestFrom_of_byIdentifier?, ?_⟩⟩
  · obtain ⟨-, -, hloading | hcomplete⟩ := hs.sound.known k n hk
    · cases hloading
    obtain ⟨sheet, hsheet⟩ := Option.isSome_iff_exists.1 hcomplete
    have hsound := hs.sound.soundAt n sheet hsheet
    refine ⟨hcomplete, hsound.guid, fun m hm => ⟨hsound.grounded.ne_of_linksTo hm, ?_⟩,
      hsound.grounded.not_transGen⟩
    exact hs.sound.listed m (hsound.grounded.of_linksTo hm).isComplete
  · intro e he
    rw [hs.requestFrom_eq] at he
    exact Library.noCircle_load s.library [] (s.library.identifier origin path) s.workspace hs.sound
      e _ (Prod.ext he rfl)

/-- A file that refers to itself after it has loaded two blocks, one of which links to the other in
every way. -/
def tangled : Session :=
  .ofFiles [("base.css", ".a \x7b color: red \x7d"),
    ("child.css", "@block-reference base from \"base.css\"; @export base; " ++
      ":scope \x7b extends: base; implements: base \x7d .a \x7b color: red \x7d"),
    ("loop.css", "@block-reference child from \"child.css\"; " ++
      "@block-reference loop from \"loop.css\";")] ["loop.css"]

theorem tangled_links : tangled.catalog.byIdentifier? "loop.css" = none ∧
    tangled.catalog.byIdentifier? "child.css" = some 1 ∧
    (tangled.catalog.block 1).base? = some 2 := by
  decide +kernel

theorem links_grounded_tangled : tangled.loading = [] ∧
    tangled.catalog.byIdentifier? "loop.css" = none ∧
    (tangled.catalog.block 1).IsComplete ∧ (tangled.catalog.block 1).guid ≠ "" ∧
    tangled.catalog.byIdentifier? (tangled.catalog.block 2).identifier = some 2 ∧
    ¬Relation.TransGen tangled.catalog.LinksTo 1 1 ∧
    ∀ e, (tangled.requestFrom none "loop.css").1 = .error e → e.closesCircle = false := by
  obtain ⟨hloop, hchild, hbase⟩ := tangled_links
  obtain ⟨⟨hloading, -⟩, hknown, hrequests⟩ :=
    Reachable.links_grounded (s := tangled) (reachable_ofFiles _ _)
  obtain ⟨hcomplete, hguid, hlinks, hcircle⟩ := hknown "child.css" 1 hchild
  exact ⟨hloading, hloop, hcomplete, hguid, (hlinks 2 (.base hbase)).2, hcircle,
    (hrequests none "loop.css").2.2⟩

end Session

end StyleBlocks
