import StyleBlocks.Options

/-!
# Arguments of the command line

The words behind the program's name: files, options with a value, and flags.  An option's value
follows it as the next word or stands behind `=` in the same word; behind a short option it may
also follow at once.  The word `--` ends the options.
-/

namespace StyleBlocks

/-- What the words of a command line say. -/
structure Arguments where
  files : List String := []
  config : Option String := none
  outDir : Option String := none
  rootDir : Option String := none
  interop : Bool := false
  minify : Bool := false
  faultTolerant : Bool := false
  noRename : Bool := false
  mapping : Bool := false
deriving DecidableEq, Repr, Inhabited

namespace Arguments

inductive Setting where
  | config
  | outDir
  | rootDir
deriving DecidableEq, Repr

def Setting.ofLong? : String → Option Setting
  | "config" => some config
  | "out-dir" => some outDir
  | "root-dir" => some rootDir
  | _ => none

def Setting.ofShort? : Char → Option Setting
  | 'c' => some config
  | 'o' => some outDir
  | _ => none

/-- Gives an option its value: not an empty one, and only once. -/
def set? (a : Arguments) (setting : Setting) (value : String) : Option Arguments :=
  let value? := if value.isEmpty then none else some value
  match setting with
  | .config => if a.config.isSome then none else value?.map fun v => { a with config := some v }
  | .outDir => if a.outDir.isSome then none else value?.map fun v => { a with outDir := some v }
  | .rootDir => if a.rootDir.isSome then none else value?.map fun v => { a with rootDir := some v }

def setFlag? (a : Arguments) : String → Option Arguments
  | "interop" => if a.interop then none else some { a with interop := true }
  | "minify" => if a.minify then none else some { a with minify := true }
  | "fault-tolerant" => if a.faultTolerant then none else some { a with faultTolerant := true }
  | "no-rename" => if a.noRename then none else some { a with noRename := true }
  | "mapping" => if a.mapping then none else some { a with mapping := true }
  | _ => none

def addFiles (a : Arguments) (files : List String) : Arguments :=
  { a with files := a.files ++ files }

inductive Word where
  | file (name : String)
  | endOfOptions
  | flag (name : String)
  | setting (setting : Setting)
  | settingValue (setting : Setting) (value : String)
  | unknown
deriving DecidableEq, Repr

def splitEquals (s : List Char) : List Char × Option (List Char) :=
  match s.dropWhile (· != '=') with
  | [] => (s, none)
  | _ :: value => (s.takeWhile (· != '='), some value)

def longWord (s : List Char) : Word :=
  let (name, value) := splitEquals s
  match Setting.ofLong? (String.ofList name), value with
  | some setting, some value => .settingValue setting (String.ofList value)
  | some setting, none => .setting setting
  | none, some _ => .unknown
  | none, none => .flag (String.ofList name)

def shortWord (letter : Char) (value : List Char) : Word :=
  match Setting.ofShort? letter, value with
  | none, _ => .unknown
  | some setting, [] => .setting setting
  | some setting, '=' :: value => .settingValue setting (String.ofList value)
  | some setting, value => .settingValue setting (String.ofList value)

def Word.ofString (word : String) : Word :=
  match word.toList with
  | ['-', '-'] => .endOfOptions
  | '-' :: '-' :: s => longWord s
  | '-' :: letter :: value => shortWord letter value
  | _ => .file word

/-- Reads words behind those that said `a`. -/
def parseFrom (a : Arguments) : List String → Option Arguments
  | [] => some a
  | word :: words =>
    match Word.ofString word with
    | .file name => (a.addFiles [name]).parseFrom words
    | .endOfOptions => some (a.addFiles words)
    | .flag name => (a.setFlag? name).bind fun a => a.parseFrom words
    | .settingValue setting value => (a.set? setting value).bind fun a => a.parseFrom words
    | .unknown => none
    | .setting setting =>
      match words with
      | [] => none
      | value :: words =>
        match Word.ofString value with
        | .file value => (a.set? setting value).bind fun a => a.parseFrom words
        | _ => none

/-- What the words say; at least one file has to be among them. -/
def parse? (words : List String) : Option Arguments :=
  (parseFrom {} words).filter fun a => !a.files.isEmpty

def override (a : Arguments) (o : Options) : Options :=
  { o with
    rootDir := a.rootDir.getD o.rootDir
    interoperable := o.interoperable || a.interop
    minify := o.minify || a.minify
    faultTolerant := o.faultTolerant || a.faultTolerant
    renameDuplicates := o.renameDuplicates && !a.noRename }

end Arguments

end StyleBlocks
