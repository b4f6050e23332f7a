import StyleBlocks.Catalog
import StyleBlocks.Reservations
import StyleBlocks.Source
import StyleBlocks.Statement

/-!
# The state of a session

A session reads blocks from a library: a source of files, preprocessors for the languages that
need one, and options.  What it has read is its workspace: the catalog of blocks and the names and
GUIDs that are taken.  A step of loading changes the workspace also where it fails.
-/

namespace StyleBlocks

/-- A file as it is handed to a preprocessor. -/
structure ImportedFile extends SourceFile where
  identifier : String
  defaultName : String
deriving DecidableEq, Repr

structure Processed where
  contents : String
  dependencies : List String
deriving DecidableEq, Repr

abbrev Preprocessor := ImportedFile → Options → Except ForeignError Processed

/-- What a session reads from. -/
structure Library where
  options : Options
  source : Source
  preprocessors : List (Language × Preprocessor)

namespace Library

/-- The stylesheet of a file.  Files of the stylesheet language itself need no preprocessor. -/
def preprocess (lib : Library) (file : ImportedFile) (displayName : String) :
    Except BlockError Processed :=
  match lib.preprocessors.lookup file.language with
  | some p => (p file lib.options).mapError .foreign
  | none =>
    if file.language = .css then .ok ⟨file.contents, []⟩
    else .error (.importing (.noPreprocessor file.language.render displayName) none)

def setPreprocessor (lib : Library) (language : Language) (p : Preprocessor) : Library :=
  { lib with
    preprocessors := (language, p) :: lib.preprocessors.filter fun e => e.1 != language }

end Library

/-- What a session has read. -/
structure Workspace where
  catalog : Catalog
  reservations : Reservations
deriving Repr

namespace Workspace

def empty (options : Options) : Workspace :=
  ⟨.empty, .new options.renameDuplicates⟩

def modifyBlock (w : Workspace) (n : Nat) (f : Block → Block) : Workspace :=
  { w with catalog := w.catalog.modifyBlock n f }

end Workspace

/-- A step of loading: it may fail, and changes the workspace in any case. -/
abbrev LoadM := ExceptT BlockError (StateM Workspace)

namespace LoadM

def block (n : Nat) : LoadM Block :=
  return (← get).catalog.block n

def modifyBlock (n : Nat) (f : Block → Block) : LoadM Unit :=
  modify (·.modifyBlock n f)

/-- Changes a block by a step that may fail, and then fails at the given place. -/
def updateBlock (n : Nat) (place : Place) (f : Block → Except BlockError Block) : LoadM Unit := do
  match f (← block n) with
  | .ok b => modifyBlock n fun _ => b
  | .error e => throw (e.locate place)

end LoadM

end StyleBlocks
