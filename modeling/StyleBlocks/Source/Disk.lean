import StyleBlocks.Source

/-!
# Disks

A disk is what is known of the files and directories that paths from a working directory lead to.
The working directory, the directories above it and the root exist.

* `Disk.read`, `Disk.write`, `Disk.makeDirectories`: files and directories by path.
* `Disk.source`: the files of a disk as a source of blocks.
-/

namespace StyleBlocks

/-- Files and directories, each by the components of the path that leads straight to it. -/
structure Disk where
  home : List PathPart := []
  files : List (List PathPart × String) := []
  directories : List (List PathPart) := []
deriving DecidableEq, Repr, Inhabited

namespace Disk

/-- The working directory, a directory above it, the root, or a directory that is known. -/
def isDirectory (d : Disk) (spot : List PathPart) : Bool :=
  spot.all (· == .up) || spot == [.root] || d.directories.contains spot

def file? (d : Disk) (spot : List PathPart) : Option String :=
  d.files.lookup spot

def up (spot : List PathPart) : List PathPart :=
  match spot.getLast? with
  | some (.name _) => spot.dropLast
  | some .root => spot
  | _ => spot ++ [.up]

def step (d : Disk) (spot : List PathPart) (part : PathPart) : Except ReadFault (List PathPart) :=
  if (d.file? spot).isSome then .error .notADirectory
  else if !d.isDirectory spot then .error .missing
  else
    match part with
    | .root => .ok [.root]
    | .here => .ok spot
    | .up => .ok (up spot)
    | .name s => if 255 < s.utf8ByteSize then .error .nameTooLong else .ok (spot ++ [part])

def locate (d : Disk) (path : String) : Except ReadFault (List PathPart) :=
  if path.toList.contains '\x00' then .error .nulInName
  else if path.isEmpty then .error .missing
  else if 4096 ≤ path.utf8ByteSize then .error .nameTooLong
  else (FileName.components path).foldlM d.step []

/-- The path ends like that of a directory. -/
def asksForDirectory (path : String) : Bool :=
  path.endsWith "/" || path.endsWith "/."

def read (d : Disk) (path : String) : Except ReadFault String := do
  let spot ← d.locate path
  match d.file? spot with
  | some contents => if asksForDirectory path then throw .notADirectory else return contents
  | none => throw (if d.isDirectory spot then .isADirectory else .missing)

def ancestors (spot : List PathPart) : List (List PathPart) :=
  (List.range spot.length).map fun n => spot.take n

def addDirectory (d : Disk) (spot : List PathPart) : Disk :=
  if d.isDirectory spot then d else { d with directories := d.directories ++ [spot] }

def addFile (d : Disk) (spot : List PathPart) (contents : String) : Disk :=
  let d := (ancestors spot).foldl addDirectory d
  { d with files := (spot, contents) :: d.files.filter fun f => f.1 != spot }

def add (d : Disk) (path contents : String) : Disk :=
  d.addFile (FileName.simplify (FileName.components path)) contents

def write (d : Disk) (path contents : String) : Option Disk :=
  match d.locate path with
  | .error _ => none
  | .ok spot =>
    if d.isDirectory spot || asksForDirectory path || !d.isDirectory spot.dropLast then none
    else some (d.addFile spot contents)

/-- Makes the directories that a path passes, `spot` being where it has led. -/
def makeDirectoriesFrom (d : Disk) (spot : List PathPart) : List PathPart → Option Disk
  | [] => some d
  | part :: parts =>
    match d.step spot part with
    | .error _ => none
    | .ok next =>
      if (d.file? next).isSome then none else makeDirectoriesFrom (d.addDirectory next) next parts

def endsInPlace (path : String) : Bool :=
  ((FileName.pieces (· == '/') path.toList).filter (!·.isEmpty)).getLast? == some ['.']

def leadsToDirectory (d : Disk) (path : String) : Bool :=
  match d.locate path with
  | .ok spot => d.isDirectory spot
  | .error _ => false

/-- Makes the directory at a path and all that lead to it.  A path that ends with `.` is one inside
the directory, which therefore has to be there already. -/
def makeDirectories (d : Disk) (path : String) : Option Disk :=
  if path.toList.contains '\x00' || 4096 ≤ path.utf8ByteSize then none
  else do
    let parts := FileName.components path
    let d ← d.makeDirectoriesFrom [] parts.dropLast
    if endsInPlace path && !d.leadsToDirectory path then none
    else d.makeDirectoriesFrom [] parts

def readFault (d : Disk) (path : String) : ReadFault :=
  match d.read path with
  | .error fault => fault
  | .ok _ => .missing

/-- The files that `before` does not have with the same contents. -/
def changesSince (d before : Disk) : List (List PathPart × String) :=
  d.files.filter fun f => before.file? f.1 != some f.2

/-- The spot is in the working directory or below it. -/
def isAtHome (spot : List PathPart) : Bool :=
  spot.all fun part => part matches .name _

def source (d : Disk) : Source where
  files := d.files.map fun (spot, contents) =>
    let identifier := FileName.render spot
    (identifier, ⟨.ofPath identifier, contents⟩)
  storage := .disk d.home d.readFault

end Disk

end StyleBlocks
