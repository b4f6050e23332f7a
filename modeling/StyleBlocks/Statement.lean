import StyleBlocks.BlockError

/-!
# Statements of the block language

What stands behind the names of the at-rules of the block language, and the values that ask for a
conflict to be resolved.
-/

namespace StyleBlocks

def languageAtRules : List String := ["block-reference", "export", "block-debug"]

def languageProperties : List String := ["block-name", "extends", "implements", "block-global"]

def rootOnlyProperties : List String := ["block-name", "extends", "implements"]

/-! ## References and exports -/

/-- The names of a reference or an export: one name, or several in brackets, each with the name it
is given. -/
inductive ImportNames where
  | single (name : String)
  | several (names : List (String × String))
deriving DecidableEq, Repr

/-- What stands behind the name of a reference or an export. -/
structure Import where
  names : ImportNames
  path : Option String
deriving DecidableEq, Repr

namespace Import

def ident? (c : Component) : Option String :=
  match c.token with
  | .ident name => some name
  | _ => none

def string? (c : Component) : Option String :=
  match c.token with
  | .string value => some value
  | _ => none

def isWord (word : String) (c : Component) : Bool :=
  (ident? c).any (sameIgnoringCase · word)

def significant (cs : List Component) : List Component :=
  cs.filter (!·.isFiller)

/-- A name, or a name and the one it is given. -/
def alias? (cs : List Component) : Option (String × String) :=
  match significant cs with
  | [name] => (ident? name).map fun n => (n, n)
  | [name, word, given] =>
    if isWord "as" word then do return (← ident? name, ← ident? given) else none
  | _ => none

def aliases? (body : List Component) : Option (List (String × String)) :=
  (splitCommas .nowhere body).mapM fun item => alias? item.1

def names? : Component → Option ImportNames
  | .block l .round body _ _ =>
    if l.token = .opener .round then (aliases? body).map .several else none
  | c => (ident? c).map .single

def path? : List Component → Option (Option String)
  | [] => some none
  | [word, path] => if isWord "from" word then (string? path).map some else none
  | _ => none

def parse? (params : String) : Option Import :=
  match significant (Component.parse params.toList).1 with
  | [] => none
  | first :: rest => do return ⟨← names? first, ← path? rest⟩

end Import

/-! ## Debug statements -/

inductive Channel where
  | comment
  | stderr
  | stdout
deriving DecidableEq, Repr

def Channel.ofName? : String → Option Channel
  | "comment" => some comment
  | "stderr" => some stderr
  | "stdout" => some stdout
  | _ => none

/-- A debug statement: the name of a block and a channel. -/
structure DebugRequest where
  reference : String
  channel : Channel
deriving DecidableEq, Repr

def words (s : List Char) : List String :=
  let (word, others) := go s
  (if word.isEmpty then [] else [String.ofList word]) ++ others
where
  /-- The characters before the first blank, and the words behind it. -/
  go : List Char → List Char × List String
    | [] => ([], [])
    | c :: s =>
      let (word, others) := go s
      if isBlank c then ([], if word.isEmpty then others else String.ofList word :: others)
      else (c :: word, others)

def DebugRequest.parse (params : String) : Except BlockFault DebugRequest :=
  match words params.toList with
  | [reference, "to", channel] =>
    match Channel.ofName? channel with
    | some c => .ok ⟨reference, c⟩
    | none => .error (.unknownChannel channel)
  | _ => .error (.malformedDebug params)

/-! ## Resolutions -/

/-- A value that asks for a conflict with another object to be resolved; an inherited one is put in
by the compiler. -/
structure Resolution where
  inherited : Bool
  reference : String
deriving DecidableEq, Repr

namespace Resolution

/-- Whether a function asks for a resolution, and for an inherited one. -/
def inheritedOf? (name : String) : Option Bool :=
  if sameIgnoringCase name "resolve" then some false
  else if sameIgnoringCase name "resolve-inherited" then some true
  else none

/-- The resolution that a value asks for, if it does.  The function's only argument has to be a
string, and nothing may follow it. -/
def parse (value : String) : Except BlockFault (Option Resolution) :=
  match Import.significant (Component.parse value.toList).1 with
  | .block l _ body _ _ :: rest =>
    match l.token with
    | .function name =>
      match inheritedOf? name with
      | none => .ok none
      | some inherited =>
        match Import.significant body, rest with
        | [argument], [] =>
          match Import.string? argument with
          | some reference => .ok (some ⟨inherited, reference⟩)
          | none => .error (.resolveArgument value)
        | _, _ => .error (.resolveArgument value)
    | _ => .ok none
  | _ => .ok none

end Resolution

def Declaration.asksResolution (d : Declaration) : Bool :=
  match Resolution.parse d.value with
  | .ok (some _) => true
  | _ => false

end StyleBlocks
