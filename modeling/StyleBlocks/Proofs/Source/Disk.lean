import StyleBlocks.Source.Disk
import StyleBlocks.Proofs.Steps

/-!
# Writing and reading files

A file that was written is read back, and no other file changes.  Where a path leads does not
change either: what is written to a disk makes no directory a file.
-/

namespace StyleBlocks

variable {s : List PathPart}

namespace Disk

variable {d d' : Disk} {path contents : String} {spot next : List PathPart} {part : PathPart}

/-! ## Putting a file on a disk -/

theorem addDirectory_files (d : Disk) (s : List PathPart) : (d.addDirectory s).files = d.files := by
  unfold addDirectory
  split <;> rfl

theorem isDirectory_addDirectory (h : d.isDirectory spot = true) :
    (d.addDirectory s).isDirectory spot = true := by
  unfold addDirectory
  split
  · exact h
  · unfold isDirectory at h ⊢
    simp only [Bool.or_eq_true, List.contains_append] at h ⊢
    exact h.imp_right .inl

theorem foldl_addDirectory (spots : List (List PathPart)) (d : Disk) :
    (spots.foldl addDirectory d).files = d.files ∧
      ∀ s, d.isDirectory s = true → (spots.foldl addDirectory d).isDirectory s = true := by
  induction spots generalizing d with
  | nil => exact ⟨rfl, fun _ h => h⟩
  | cons s spots ih =>
    obtain ⟨hfiles, hkeeps⟩ := ih (d.addDirectory s)
    exact ⟨hfiles.trans (addDirectory_files d s), fun t h => hkeeps t (isDirectory_addDirectory h)⟩

theorem isDirectory_addFile (h : d.isDirectory spot = true) :
    (d.addFile s contents).isDirectory spot = true :=
  (foldl_addDirectory (ancestors s) d).2 spot h

theorem file?_addFile_self : (d.addFile spot contents).file? spot = some contents := by
  simp [addFile, file?]

theorem file?_addFile_of_ne (h : s ≠ spot) : (d.addFile spot contents).file? s = d.file? s := by
  have hfiles := (foldl_addDirectory (ancestors spot) d).1
  have hfilter : ∀ files : List (List PathPart × String),
      (files.filter fun f => f.1 != spot).lookup s = files.lookup s := by
    intro files
    induction files with
    | nil => rfl
    | cons f files ih =>
      obtain ⟨t, c⟩ := f
      by_cases ht : t = spot
      · subst ht
        simp [List.lookup_cons, ih, beq_false_of_ne h]
      · simp [ht, List.lookup_cons, ih]
  unfold addFile file?
  simp only [List.lookup_cons, beq_false_of_ne h, hfiles, hfilter]

/-! ## Where paths lead -/

theorem step_ok (h : d.step spot part = .ok next) :
    d.file? spot = none ∧ d.isDirectory spot = true := by
  unfold step at h
  cases hfile : d.file? spot with
  | some c => simp [hfile] at h
  | none =>
    cases hdir : d.isDirectory spot with
    | false => simp [hfile, hdir] at h
    | true => exact ⟨rfl, rfl⟩

theorem step_name {name : String} (h : d.step spot (.name name) = .ok next) :
    next = spot ++ [.name name] := by
  unfold step at h
  split at h
  · cases h
  split at h
  · cases h
  dsimp only at h
  split at h
  · cases h
  · exact (Except.ok.inj h).symm

theorem step_addFile (hs : d.isDirectory s = false) (h : d.step spot part = .ok next) :
    (d.addFile s contents).step spot part = .ok next := by
  obtain ⟨hfile, hdir⟩ := step_ok h
  have hne : spot ≠ s := by
    rintro rfl
    rw [hs] at hdir
    cases hdir
  unfold step at h ⊢
  rw [file?_addFile_of_ne hne, isDirectory_addFile hdir]
  rw [hdir] at h
  exact h

theorem foldlM_step_addFile (hs : d.isDirectory s = false) {parts : List PathPart}
    (h : parts.foldlM d.step spot = .ok next) :
    parts.foldlM (d.addFile s contents).step spot = .ok next := by
  induction parts generalizing spot with
  | nil => exact h
  | cons part parts ih =>
    rw [List.foldlM_cons] at h ⊢
    cases hstep : d.step spot part with
    | error e =>
      rw [hstep] at h
      cases h
    | ok t =>
      rw [hstep] at h
      rw [step_addFile hs hstep]
      exact ih h

theorem locate_eq_ok_iff : d.locate path = .ok spot ↔
    path.toList.contains '\x00' = false ∧ path.isEmpty = false ∧ ¬4096 ≤ path.utf8ByteSize ∧
      (FileName.components path).foldlM d.step [] = .ok spot := by
  unfold locate
  cases path.toList.contains '\x00' with
  | true => simp
  | false =>
    cases path.isEmpty with
    | true => simp
    | false => by_cases hlong : 4096 ≤ path.utf8ByteSize <;> simp [hlong]

theorem locate_addFile (hs : d.isDirectory s = false) (h : d.locate path = .ok spot) :
    (d.addFile s contents).locate path = .ok spot := by
  obtain ⟨hnul, hempty, hshort, hsteps⟩ := locate_eq_ok_iff.1 h
  exact locate_eq_ok_iff.2 ⟨hnul, hempty, hshort, foldlM_step_addFile hs hsteps⟩

theorem getLast?_of_locate {name : String}
    (hpath : (FileName.components path).getLast? = some (.name name))
    (h : d.locate path = .ok spot) : spot.getLast? = some (.name name) := by
  obtain ⟨parts, hparts⟩ := List.getLast?_eq_some_iff.1 hpath
  obtain ⟨-, -, -, hsteps⟩ := locate_eq_ok_iff.1 h
  rw [hparts, List.foldlM_append] at hsteps
  obtain ⟨s, -, hlast⟩ := except_bind_ok hsteps
  obtain ⟨t, hstep, hnil⟩ := except_bind_ok hlast
  cases hnil
  rw [step_name hstep, List.getLast?_concat]

/-! ## Writing -/

theorem write_eq_some (h : d.write path contents = some d') :
    ∃ spot, d.locate path = .ok spot ∧ d.isDirectory spot = false ∧ asksForDirectory path = false ∧
      d' = d.addFile spot contents := by
  unfold write at h
  cases hlocate : d.locate path with
  | error e =>
    rw [hlocate] at h
    cases h
  | ok spot =>
    rw [hlocate] at h
    simp only [Option.ite_none_left_eq_some, Option.some.injEq, Bool.or_eq_true, not_or,
      Bool.not_eq_true] at h
    exact ⟨spot, rfl, h.1.1.1, h.1.1.2, h.2.symm⟩

theorem read_eq_ok_iff {c : String} : d.read path = .ok c ↔
    ∃ spot, d.locate path = .ok spot ∧ d.file? spot = some c ∧ asksForDirectory path = false := by
  unfold read
  cases hlocate : d.locate path with
  | error e => simp [bind, Except.bind]
  | ok spot =>
    cases hfile : d.file? spot with
    | none => simp [bind, Except.bind, throw, throwThe, MonadExceptOf.throw, hfile]
    | some contents =>
      cases hends : asksForDirectory path <;>
        simp [bind, Except.bind, pure, Except.pure, throw, throwThe, MonadExceptOf.throw, hfile]

theorem read_write (h : d.write path contents = some d') : d'.read path = .ok contents := by
  obtain ⟨spot, hlocate, hfree, hends, rfl⟩ := write_eq_some h
  exact read_eq_ok_iff.2 ⟨spot, locate_addFile hfree hlocate, file?_addFile_self, hends⟩

theorem read_write_of_ne {other c : String} (h : d.write path contents = some d')
    (hne : d.locate other ≠ d.locate path) (hread : d.read other = .ok c) :
    d'.read other = .ok c := by
  obtain ⟨spot, hlocate, hfree, -, rfl⟩ := write_eq_some h
  obtain ⟨s, hs, hfile, hends⟩ := read_eq_ok_iff.1 hread
  have hspot : s ≠ spot := by
    rintro rfl
    exact hne (hs.trans hlocate.symm)
  refine read_eq_ok_iff.2 ⟨s, locate_addFile hfree hs, ?_, hends⟩
  rw [file?_addFile_of_ne hspot, hfile]

end Disk

end StyleBlocks
