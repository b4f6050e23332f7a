import StyleBlocks.Session.Reading

/-!
# Loading blocks

Every file is read at most once, and the blocks it refers to are loaded while it is read.  A file
that is asked for while it is being loaded closes a circle, which is an error; hence files are
loaded inside each other only as deep as there are files, and loading ends.  A block whose loading
fails keeps its number but can no longer be asked for.
-/

namespace StyleBlocks

namespace Library

def identifier (lib : Library) (origin : Option String) (path : String) : String :=
  lib.source.identifier lib.options origin path

def readStylesheet (lib : Library) (identifier : String) (file : SourceFile) :
    Except BlockError (Stylesheet × List String) := do
  let filename := lib.source.displayName identifier
  let processed ← lib.preprocess ⟨file, identifier, nameFromFile identifier⟩ filename
  match Stylesheet.parse (some filename) processed.contents with
  | .ok sheet => return (sheet, processed.dependencies)
  | .error e => throw (.ofSyntaxError filename e)

/-- Gives a block its GUID.  That its first GUID was taken is an error, which a tolerant session
only keeps. -/
def identify (lib : Library) (n : Nat) (identifier : String) : LoadM Unit := do
  match (← get).reservations.reserveGuid identifier with
  | none => throw (.noGuid identifier)
  | some (guid, collision, reservations) =>
    modify fun w => { w with reservations := reservations }
    LoadM.modifyBlock n fun b => { b with guid := guid }
    match collision with
    | none => pure ()
    | some e => if lib.options.faultTolerant then LoadM.modifyBlock n (·.keepError e) else throw e

def register (lib : Library) (n : Nat) (identifier : String) : LoadM Unit := do
  let name := (← LoadM.block n).name
  if !isIdentifier name then throw (.unplaced (.illegalName name))
  let (unique, reservations) ← (← get).reservations.reserveName name identifier
  modify fun w => { w with reservations := reservations }
  if unique != name then LoadM.modifyBlock n fun b => { b with name := unique }
  lib.identify n identifier

def loadFile (lib : Library) (identifier : String) (file : SourceFile) (load : LoadStep) :
    LoadM Nat := do
  let (sheet, dependencies) ← lib.readStylesheet identifier file
  let (n, catalog) := (← get).catalog.startBlock identifier (nameFromFile identifier)
  modify fun w => { w with catalog := catalog }
  LoadM.modifyBlock n fun b =>
    ((lib.source.dependency? identifier).toList ++ dependencies).foldl Block.dependOn b
  BlockReader.read ⟨n, lib.source.displayName identifier⟩ load lib.options.faultTolerant sheet
  lib.register n identifier
  LoadM.modifyBlock n fun b => { b with stylesheet := some sheet }
  return n

/-- A step after whose failure an identifier no longer leads to a block. -/
def retractOnError {α : Type} (identifier : String) (step : LoadM α) : LoadM α :=
  tryCatch step fun e => do
    modify fun w => { w with catalog := w.catalog.retract identifier }
    throw e

/-- The files from one that is being loaded on back to itself, as messages show them. -/
def circle (lib : Library) (loading : List String) (identifier : String) : List String :=
  (loading.dropWhile (· != identifier) ++ [identifier]).map lib.source.displayName

def remaining (lib : Library) (loading : List String) : Nat :=
  lib.source.identifiers.countP (· ∉ loading)

/-- A file that begins to be loaded leaves fewer that are not. -/
theorem remaining_lt {lib : Library} {loading : List String} {identifier : String}
    (hf : identifier ∈ lib.source.identifiers) (hl : identifier ∉ loading) :
    lib.remaining (loading ++ [identifier]) < lib.remaining loading := by
  simp only [remaining, List.countP_eq_length_filter]
  have h : lib.source.identifiers.filter (· ∉ loading ++ [identifier])
      = (lib.source.identifiers.filter (· ∉ loading)).filter (· != identifier) := by
    rw [List.filter_filter]
    congr 1
    funext file
    simp [Bool.and_comm, bne, Bool.beq_eq_decide_eq]
  rw [h]
  exact List.length_filter_lt_length_iff_exists.2
    ⟨identifier, List.mem_filter.2 ⟨hf, by simpa using hl⟩, by simp⟩

end Library

/-- A session: what it reads from, what it has read, and the files that are being loaded, outermost
first. -/
structure Session where
  library : Library
  workspace : Workspace
  loading : List String

namespace Session

def new (options : Options) (source : Source) : Session :=
  ⟨⟨options, source, []⟩, .empty options, []⟩

def catalog (s : Session) : Catalog :=
  s.workspace.catalog

/-- Reads from other files from now on; what is loaded stays. -/
def setSource (s : Session) (source : Source) : Session :=
  { s with library := { s.library with source := source } }

def setPreprocessor (s : Session) (language : Language) (p : Preprocessor) : Session :=
  { s with library := s.library.setPreprocessor language p }

def push (s : Session) (identifier : String) : Session :=
  { s with loading := s.loading ++ [identifier] }

def pop (s : Session) : Session :=
  { s with loading := s.loading.dropLast }

def withWorkspace (s : Session) (workspace : Workspace) : Session :=
  { s with workspace := workspace }

def perform {α : Type} (s : Session) (step : LoadM α) : Except BlockError α × Session :=
  let out := step.run s.workspace
  (out.1, s.withWorkspace out.2)

/-- The block with a given identifier, loaded if it is not there.  While its file is read it is one
of those that are being loaded, and so it is for the loads of the blocks that it refers to. -/
def load (s : Session) (identifier : String) : Except BlockError Nat × Session :=
  if hl : identifier ∈ s.loading then
    (.error (.importing (.cycle (s.library.circle s.loading identifier)) none), s)
  else
    match s.catalog.byIdentifier? identifier with
    | some n => (.ok n, s)
    | none =>
      match hf : s.library.source.fetch identifier with
      | .error fault => (.error (.importing fault none), s)
      | .ok file =>
        have := Library.remaining_lt (Source.mem_identifiers_of_fetch hf) hl
        let out := (s.push identifier).perform <| Library.retractOnError identifier <|
          s.library.loadFile identifier file fun path => ExceptT.mk fun workspace =>
            -- the files that are being loaded are the same after a load as before it
            let out := load ((s.push identifier).withWorkspace workspace)
              (s.library.identifier (some identifier) path)
            (out.1, out.2.workspace)
        (out.1, out.2.pop)
termination_by s.library.remaining s.loading

/-- The block that the file `origin`, or nobody, names by a path. -/
def requestFrom (s : Session) (origin : Option String) (path : String) :
    Except BlockError Nat × Session :=
  s.load (s.library.identifier origin path)

def request (s : Session) (path : String) : Except BlockError Nat × Session :=
  s.requestFrom none path

end Session

end StyleBlocks
