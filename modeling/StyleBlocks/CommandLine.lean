import StyleBlocks.Arguments
import StyleBlocks.Compilation.Run
import StyleBlocks.Source.Disk

/-!
# The command line

The program compiles the files it is given, one after the other in one session, and prints the
results or writes them into a directory.  The first failure ends it; what was printed and written
before stays.

* `CommandLine.run`: what the program does, given a minifier, its arguments and a disk.
-/

namespace StyleBlocks

inductive CommandError where
  | unreadableConfig (path : String) (fault : ReadFault)
  | invalidConfig (path : String)
  | cannotCreate (path : String)
  | cannotWrite (path : String)
  | block (error : BlockError)
deriving DecidableEq, Repr

def CommandError.message : CommandError → String
  | unreadableConfig path _ => "Failed to read config " ++ path
  | invalidConfig path => "Invalid config " ++ path
  | cannotCreate path => "Failed to create " ++ path
  | cannotWrite path => "Failed to write " ++ path
  | block error => error.message

/-- What the program has done so far. -/
structure Progress where
  disk : Disk
  session : Session
  printed : Printed := {}

/-- A step of the program: it may fail, and what it does before stays. -/
abbrev CommandM := ExceptT CommandError (StateM Progress)

namespace CommandLine

def note (p : Printed) : CommandM Unit :=
  modify fun s =>
    { s with printed := ⟨s.printed.stdout ++ p.stdout, s.printed.stderr ++ p.stderr⟩ }

def printText (text : String) : CommandM Unit :=
  note { stdout := text }

/-- Has the disk changed; the session reads from it as it is. -/
def setDisk (disk : Disk) : CommandM Unit :=
  modify fun s => { s with disk := disk, session := s.session.setSource disk.source }

def inside (directory name : String) : String :=
  if directory.endsWith "/" then directory ++ name else directory ++ "/" ++ name

def destination (directory file extension : String) : String :=
  inside directory (nameFromFile file ++ "." ++ extension)

def writeFile (path contents : String) : CommandM Unit := do
  match (← get).disk.write path contents with
  | some disk => setDisk disk
  | none => throw (.cannotWrite path)

def loadBlock (file : String) : CommandM Nat := do
  let s ← get
  let (result, session) := s.session.request file
  set { s with session := session }
  match result with
  | .ok n => return n
  | .error e => throw (.block e)

def compileLoaded (minify : Minifier) (n : Nat) : CommandM String := do
  let session := (← get).session
  let (result, printed) := session.compile n
  note printed
  match result.bind (·.toCss minify session.library.options) with
  | .ok css => return css
  | .error e => throw (.block e)

def processFile (minify : Minifier) (a : Arguments) (file : String) : CommandM Unit := do
  let n ← loadBlock file
  let css ← compileLoaded minify n
  let mapping := (ClassIndex.ofBlock (← get).session.catalog n).render
  match a.outDir with
  | some directory =>
    writeFile (destination directory file "css") css
    if a.mapping then writeFile (destination directory file "json") mapping
  | none =>
    printText css
    if a.mapping then printText (mapping ++ "\n")

def makeOutDir (a : Arguments) : CommandM Unit := do
  match a.outDir with
  | none => pure ()
  | some directory =>
    match (← get).disk.makeDirectories directory with
    | some disk => setDisk disk
    | none => throw (.cannotCreate directory)

def options (a : Arguments) (disk : Disk) : Except CommandError Options :=
  match a.config with
  | none => .ok (a.override {})
  | some path =>
    match disk.read path with
    | .error fault => .error (.unreadableConfig path fault)
    | .ok text =>
      match Options.parse? text with
      | some o => .ok (a.override o)
      | none => .error (.invalidConfig path)

def processAll (minify : Minifier) (a : Arguments) : CommandM Unit := do
  makeOutDir a
  a.files.forM (processFile minify a)

/-- What a run leaves: what was printed, the disk, and the error that ended it. -/
structure Outcome where
  printed : Printed
  disk : Disk
  error : Option CommandError
deriving Repr

namespace Outcome

def status (o : Outcome) : Nat :=
  if o.error.isSome then 1 else 0

def errorText (o : Outcome) : String :=
  match o.error with
  | some e => o.printed.stderr ++ "Error: " ++ e.message ++ "\n"
  | none => o.printed.stderr

end Outcome

def run (minify : Minifier) (a : Arguments) (disk : Disk) : Outcome :=
  match options a disk with
  | .error e => ⟨{}, disk, some e⟩
  | .ok o =>
    let (result, p) := (processAll minify a).run { disk := disk, session := .new o disk.source }
    ⟨p.printed, p.disk, match result with | .ok () => none | .error e => some e⟩

end CommandLine

end StyleBlocks
