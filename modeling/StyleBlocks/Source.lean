import StyleBlocks.BlockError
import StyleBlocks.FileName
import StyleBlocks.Options

/-!
# Where blocks come from

A source holds finitely many files, each under the identifier by which it is asked for.  Files in
memory and files of a disk differ in how paths become identifiers and in what is said of a file that
is not there.
-/

namespace StyleBlocks

structure SourceFile where
  language : Language
  contents : String
deriving DecidableEq, Repr

/-- Where files are: in memory, or on a disk.  The working directory of a disk is left out of what
messages show; `fault` says why a file that is not there cannot be read. -/
inductive Storage where
  | memory
  | disk (home : List PathPart) (fault : String → ReadFault)

structure Source where
  files : List (String × SourceFile)
  storage : Storage

namespace Source

def empty : Source := ⟨[], .memory⟩

def identifiers (s : Source) : List String :=
  s.files.map Prod.fst

def identifier (s : Source) (options : Options) (origin : Option String) (path : String) :
    String :=
  match s.storage with
  | .memory => FileName.identify origin path ""
  | .disk .. => FileName.identify origin path options.rootDir

def faultOf (s : Source) (identifier : String) : ImportFault :=
  match s.storage with
  | .memory => .noSuchFile identifier
  | .disk _ fault => .unreadable identifier (fault identifier)

def fetch (s : Source) (identifier : String) : Except ImportFault SourceFile :=
  match s.files.lookup identifier with
  | some file => .ok file
  | none => .error (s.faultOf identifier)

theorem mem_identifiers_of_fetch {s : Source} {identifier : String} {file : SourceFile}
    (h : s.fetch identifier = .ok file) : identifier ∈ s.identifiers := by
  unfold fetch at h
  split at h
  · rename_i f hl
    obtain ⟨l₁, l₂, hs, _⟩ := List.lookup_eq_some_iff.1 hl
    simp [identifiers, hs]
  · simp at h

/-- The file on disk on which a block depends by being read from it. -/
def dependency? (s : Source) (identifier : String) : Option String :=
  match s.storage with
  | .memory => none
  | .disk .. => some identifier

def displayName (s : Source) (identifier : String) : String :=
  match s.storage with
  | .memory => identifier
  | .disk home _ =>
    let parts := FileName.components identifier
    if !home.isEmpty && home.isPrefixOf parts then FileName.render (parts.drop home.length)
    else identifier

/-- Adds a file in memory or replaces one.  Its language is given or seen from its name. -/
def add (s : Source) (path contents : String) (language : Option Language) : Source :=
  let identifier := FileName.render (FileName.simplify (FileName.components path))
  let file : SourceFile := ⟨language.getD (.ofPath path), contents⟩
  { s with files := (identifier, file) :: s.files.filter fun f => f.1 != identifier }

end Source

end StyleBlocks
