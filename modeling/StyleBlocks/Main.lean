import StyleBlocks.CommandLine

/-!
# The program

Reads the files that the command line needs, runs it, and carries out what it did: what it prints,
the directories it makes and the files it writes.  The files that a run needs are found by
running: a file that a run lacks is read from disk, and the run starts anew. -/

namespace StyleBlocks.Program

/-- The file for whose lack a run failed. -/
def lacking? (o : CommandLine.Outcome) : Option String :=
  match o.error with
  | some (.unreadableConfig path .missing) => some path
  | some (.block (.importing (.unreadable identifier .missing) _)) => some identifier
  | _ => none

def readFile? (path : String) : IO (Option String) := do
  try
    return some (← IO.FS.readFile path)
  catch _ => return none

/-- The disk that a run starts with.  A file that has the name of the directory for the output is
on it. -/
def startDisk (a : Arguments) : IO Disk := do
  match a.outDir with
  | none => return {}
  | some path =>
    match ← readFile? path with
    | some contents => return Disk.add {} path contents
    | none => return {}

/-- No minifier is part of the program, which writes what is to be minified as it is. -/
def minify : Minifier := .ok

/-- Runs the command line, reading the files it lacks.  Returns the files it started with as well.
-/
partial def run (a : Arguments) (disk : Disk) : IO (Disk × CommandLine.Outcome) := do
  let outcome := CommandLine.run minify a disk
  match lacking? outcome with
  | none => return (disk, outcome)
  | some path =>
    match ← readFile? path with
    | none => return (disk, outcome)
    | some contents =>
      let disk := disk.add path contents
      if (disk.read path).isOk then run a disk else return (disk, outcome)

/-- Makes the directories that a run has made, and writes the files that it has written. -/
def writeChanges (before after : Disk) : IO Unit := do
  for spot in after.directories do
    if !before.directories.contains spot then IO.FS.createDirAll (FileName.render spot)
  for (spot, contents) in (after.changesSince before).reverse do
    IO.FS.writeFile (FileName.render spot) contents

def usage : String :=
  "Usage: css-blocks [OPTIONS] <FILES>..."

end StyleBlocks.Program

open StyleBlocks in
def main (args : List String) : IO UInt32 := do
  match Arguments.parse? args with
  | none =>
    IO.eprintln Program.usage
    return 2
  | some a =>
    let (before, outcome) ← Program.run a (← Program.startDisk a)
    IO.print outcome.printed.stdout
    IO.eprint outcome.errorText
    try
      Program.writeChanges before outcome.disk
      return outcome.status.toUInt32
    catch e =>
      IO.eprintln ("Error: " ++ toString e)
      return 1
