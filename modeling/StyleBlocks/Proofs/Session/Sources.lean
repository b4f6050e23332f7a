import StyleBlocks.Proofs.Compilation.References

/-!
# Objects that are found by their text

An object is told to the user by the text of its path, in which the names stand as they are.  The
same text is a reference: the block reads it as a path again and looks the path up.

Main result: `Session.Reachable.source_found_iff`.
-/

namespace StyleBlocks

namespace Workspace.Sound

variable {loading : List String} {w : Workspace} {n : Nat} {t : ObjectId} {path : ObjectPath}

theorem pathTo_eq_of_named? (h : w.Sound loading) (hn : (w.catalog.block n).IsComplete)
    (hlocal : path.block = none) (ht : w.catalog.named? n path = some t) :
    path = w.catalog.pathTo t := by
  rw [(h.of_named? hn ht).2, ObjectPath.toLocal, ← hlocal]

theorem pathTo_eq_of_own (h : w.Sound loading) (hn : (w.catalog.block n).IsComplete)
    (hlocal : path.block = none) (ht : (w.catalog.block n).find? path = some t) :
    path = w.catalog.pathTo t :=
  ((h.orderly hn).find? ht hlocal).2.2.symm

end Workspace.Sound

theorem Catalog.lookup_eq_some_iff {g : Catalog} {n : Nat} {source : String} {t : ObjectId} :
    g.lookup n source = some t ↔
      ∃ path, ObjectPath.parse source = .ok path ∧ g.named? n path = some t := by
  constructor
  · intro h
    obtain ⟨path, hpath, hnamed⟩ := Option.bind_eq_some_iff.1 h
    exact ⟨path, except_toOption_some hpath, hnamed⟩
  · rintro ⟨path, hpath, hnamed⟩
    exact Option.bind_eq_some_iff.2 ⟨path, congrArg Except.toOption hpath, hnamed⟩

theorem Catalog.own?_eq_some_iff {g : Catalog} {n : Nat} {source : String} {t : ObjectId} :
    g.own? n source = some t ↔ ∃ path, ObjectPath.parse source = .ok path ∧ path.block = none ∧
      (g.block n).find? path = some t := by
  constructor
  · intro h
    obtain ⟨path, hpath, hfind⟩ := Option.bind_eq_some_iff.1 h
    cases hblock : path.block with
    | none => exact ⟨path, except_toOption_some hpath, hblock, by simpa [hblock] using hfind⟩
    | some name => simp [hblock] at hfind
  · rintro ⟨path, hpath, hblock, hfind⟩
    exact Option.bind_eq_some_iff.2 ⟨path, congrArg Except.toOption hpath, by simpa [hblock]⟩

/-- **When an object is found by its text.**  In every state of a session and for every object of a
block that is loaded, the text of the object's path leads back to the object, among the references of
its block and among the block's own objects, exactly if the names in the path are identifiers. -/
theorem Session.Reachable.source_found_iff {s : Session} (hs : s.Reachable) {id : ObjectId}
    (hcomplete : (s.catalog.block id.block).IsComplete)
    (hi : id.index < (s.catalog.block id.block).objects.length) :
    (s.catalog.lookup id.block (s.catalog.sourceOf id) = some id ↔
        (s.catalog.pathTo id).namesAreIdentifiers = true) ∧
      (s.catalog.own? id.block (s.catalog.sourceOf id) = some id ↔
        (s.catalog.pathTo id).namesAreIdentifiers = true) := by
  have hlocal : (s.catalog.pathTo id).block = none := Block.block_pathTo id.index
  have hclass : (s.catalog.pathTo id).className ≠ some "root" :=
    (hs.sound.namesReadable hcomplete).className_pathTo id.index
  have hread : ObjectPath.parse (s.catalog.sourceOf id) = .ok (s.catalog.pathTo id) ↔
      (s.catalog.pathTo id).namesAreIdentifiers = true :=
    ObjectPath.parse_render_iff hlocal hclass
  -- whatever the names are, the text names no other block, so what it leads to has its path
  have hbare : ∀ path, ObjectPath.parse (s.catalog.sourceOf id) = .ok path → path.block = none :=
    fun path hpath => ObjectPath.block_of_parse_render hlocal hpath
  constructor
  · rw [Catalog.lookup_eq_some_iff, ← hread]
    constructor
    · rintro ⟨path, hpath, hnamed⟩
      rw [hpath, hs.sound.pathTo_eq_of_named? hcomplete (hbare path hpath) hnamed]
      rfl
    · intro hpath
      refine ⟨_, hpath, ?_⟩
      rw [Catalog.named?, hlocal]
      exact hs.sound.find?_pathTo ⟨hcomplete, hi⟩
  · rw [Catalog.own?_eq_some_iff, ← hread]
    constructor
    · rintro ⟨path, hpath, hblock, hfind⟩
      rw [hpath, hs.sound.pathTo_eq_of_own hcomplete hblock hfind]
      rfl
    · intro hpath
      refine ⟨_, hpath, hlocal, ?_⟩
      have hown := (hs.sound.orderly hcomplete).wellFormed.find id.index hi
      rwa [(hs.sound.orderly hcomplete).number] at hown

/-- A block with a class and a state whose names need no escape, and with a class whose name does. -/
def escapedName : Session :=
  .ofFiles [("a.css", ".b[state|c=d] \x7b color: red \x7d .a\\+b \x7b color: blue \x7d")] ["a.css"]

theorem isComplete_escapedName : (escapedName.catalog.block 0).IsComplete := by
  change (escapedName.catalog.block 0).stylesheet.isSome = true
  decide +kernel

theorem source_found_iff_escapedName : 2 < (escapedName.catalog.block 0).objects.length ∧
    (escapedName.catalog.lookup 0 (escapedName.catalog.sourceOf ⟨0, 2⟩) = some ⟨0, 2⟩ ↔
        (escapedName.catalog.pathTo ⟨0, 2⟩).namesAreIdentifiers = true) ∧
      (escapedName.catalog.own? 0 (escapedName.catalog.sourceOf ⟨0, 2⟩) = some ⟨0, 2⟩ ↔
        (escapedName.catalog.pathTo ⟨0, 2⟩).namesAreIdentifiers = true) := by
  have hi : 2 < (escapedName.catalog.block 0).objects.length := by decide +kernel
  exact ⟨hi, @Session.Reachable.source_found_iff _ (Session.reachable_ofFiles _ _) ⟨0, 2⟩
    isComplete_escapedName hi⟩

/-- The text of a class whose name needs an escape leads to nothing. -/
theorem escapedName_not_found : (escapedName.catalog.block 0).IsComplete ∧
    3 < (escapedName.catalog.block 0).objects.length ∧
    escapedName.catalog.sourceOf ⟨0, 3⟩ = ".a+b" ∧
    escapedName.catalog.lookup 0 (escapedName.catalog.sourceOf ⟨0, 3⟩) = none ∧
    escapedName.catalog.own? 0 (escapedName.catalog.sourceOf ⟨0, 3⟩) = none := by
  refine ⟨isComplete_escapedName, ?_⟩
  decide +kernel

end StyleBlocks
