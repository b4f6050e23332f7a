import StyleBlocks.Json

/-!
# Options

The options of a session, and how they are read from a JSON document: an object with a member for
each option that is set, or an array with the first options in order.
-/

namespace StyleBlocks

inductive NamingScheme where
  | bem
deriving DecidableEq, Repr

/-- The options of a session.

* `interoperable`: an `:export` rule with the output classes is appended.
* `rootDir`: where the paths of the first files start.
* `renameDuplicates`: a block whose name is taken is given another one.
* `faultTolerant`: errors in a block's structure are kept with the block and do not stop it.
* `minify`: the output is to be made small. -/
structure Options where
  naming : NamingScheme := .bem
  interoperable : Bool := false
  rootDir : String := "."
  renameDuplicates : Bool := true
  faultTolerant : Bool := false
  minify : Bool := false
deriving DecidableEq, Repr, Inhabited

namespace Options

/-- The names of the options in a JSON document, in their order. -/
def keys : List String :=
  ["outputMode", "interoperableCSS", "rootDir", "renameDuplicateBlocks", "faultTolerant", "minify"]

def boolOf? : Json → Option Bool
  | .bool b => some b
  | _ => none

def stringOf? : Json → Option String
  | .string s => s
  | _ => none

/-- An output mode: its name, or an object with the name as its only key and no value. -/
def namingOf? : Json → Option NamingScheme
  | .string (some "bem") => some .bem
  | .object [(some "bem", .null)] => some .bem
  | _ => none

def set? (o : Options) (key : String) (value : Json) : Option Options :=
  match key with
  | "outputMode" => (namingOf? value).map fun v => { o with naming := v }
  | "interoperableCSS" => (boolOf? value).map fun v => { o with interoperable := v }
  | "rootDir" => (stringOf? value).map fun v => { o with rootDir := v }
  | "renameDuplicateBlocks" => (boolOf? value).map fun v => { o with renameDuplicates := v }
  | "faultTolerant" => (boolOf? value).map fun v => { o with faultTolerant := v }
  | "minify" => (boolOf? value).map fun v => { o with minify := v }
  | _ => some o

/-- Sets the options of an object's members.  No option may be set twice; `seen` are set. -/
def ofMembers? (o : Options) (seen : List String) : List (Option String × Json) → Option Options
  | [] => some o
  | (none, _) :: _ => none
  | (some key, value) :: members =>
    if keys.contains key && seen.contains key then none
    else (o.set? key value).bind fun o => ofMembers? o (key :: seen) members

/-- Sets the options of an array's elements, one option after the other. -/
def ofElements? (o : Options) : List String → List Json → Option Options
  | _, [] => some o
  | [], _ :: _ => none
  | key :: keys, value :: values => (o.set? key value).bind fun o => ofElements? o keys values

/-- The options in a JSON document; what is not set keeps its default. -/
def parse? (text : String) : Option Options :=
  match Json.parse text with
  | some (.object members) => ofMembers? {} [] members
  | some (.array elements) => ofElements? {} keys elements
  | _ => none

end Options

end StyleBlocks
