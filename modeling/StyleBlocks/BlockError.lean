import StyleBlocks.ObjectPath

/-!
# Errors in blocks

What can go wrong while blocks are loaded and compiled.  Each kind of error lists its causes, and
`BlockError.message` words an error with its place.  Errors in a stylesheet, in a path, in an
implementation and in an import can be given a place, which they keep once they have it.
-/

namespace StyleBlocks

structure Place where
  filename : Option String
  location : Location
deriving DecidableEq, Repr

def Place.render (p : Place) : String :=
  let name := p.filename.getD "<unknown>"
  s!"{name}:{p.location.line}:{p.location.column}"

/-- Why a selector cannot be written with output classes. -/
inductive OutputFault where
  | noPath (fault : PathFault)
  | notFound (path block : String)
deriving DecidableEq, Repr

def OutputFault.message : OutputFault → String
  | noPath fault => fault.message
  | notFound path block => s!"Cannot find `{path}` in block `{block}`"

/-- What is wrong with a block's stylesheet. -/
inductive BlockFault where
  | stylesheet (fault : Fault)
  | noSelector (error : SyntaxError)
  | malformedReference (params : String)
  | malformedExport (params : String)
  | malformedDebug (params : String)
  | unknownChannel (channel : String)
  | noSuchImport (name path : String)
  | noSuchExport (name path : String)
  | exportOfUnknown (name : String)
  | referenceTaken (name : String)
  | defaultExport
  | exportTaken (name : String)
  | unknownBlock (name : String)
  | outsideRoot (property : String)
  | illegalName (name : String)
  | secondBase
  | cyclicBase (name : String)
  | objectIn (fault : PathFault) (selector : String)
  | pseudoElementInContext (selector : String)
  | globalWithoutState
  | globalValue (value : String)
  | foreignKey (selector : String)
  | foreignWithoutState (reference selector : String)
  | notFound (path : String)
  | notGlobal (path : String)
  | output (fault : OutputFault)
  | unmergeable (first second : String)
  | noStylesheet (name : String)
  | resolveArgument (value : String)
  | resolveBetween (property : String)
  | resolveWithoutValue (property : String)
  | resolveOwnBlock
  | resolveAncestor
  | resolveNothing (property reference : String)
  | unminifiable (reason : String)
deriving DecidableEq, Repr

def BlockFault.message : BlockFault → String
  | stylesheet fault => fault.message
  | noSelector error => error.message
  | malformedReference params =>
    s!"Malformed block reference: `@block-reference {params}`; expected `<name> from \"<path>\"`"
  | malformedExport params =>
    s!"Malformed block export: `@export {params}`; "
      ++ "expected `<name>` or `(<name> [as <alias>], ...)`"
  | malformedDebug params =>
    s!"Malformed @block-debug statement `{params}`; expected `<block> to <channel>`"
  | unknownChannel channel =>
    s!"Invalid @block-debug channel `{channel}`; expected comment, stderr or stdout"
  | noSuchImport name path => s!"Cannot import `{name}` from `{path}`: the block has no such export"
  | noSuchExport name path => s!"Cannot export `{name}` from `{path}`: the block has no such export"
  | exportOfUnknown name =>
    s!"Cannot export `{name}`: no block named `{name}` is referenced in this block"
  | referenceTaken name => s!"Block reference `{name}` is already declared"
  | defaultExport => "Cannot override the `default` export of a block"
  | exportTaken name => s!"Cannot export `{name}` more than once"
  | unknownBlock name => s!"No block named `{name}` is referenced in this block"
  | outsideRoot property => s!"Cannot set {property} outside the `:scope` selector"
  | illegalName name => s!"Illegal block name. '{name}' is not a legal CSS identifier."
  | secondBase => "A block can only extend one other block"
  | cyclicBase name => s!"Cannot extend `{name}`: the inheritance chain would form a cycle"
  | objectIn fault selector => s!"{fault.message} (in `{selector}`)"
  | pseudoElementInContext selector =>
    s!"Pseudo-elements are only allowed in the key selector: `{selector}`"
  | globalWithoutState => "block-global can only be set on states"
  | globalValue value => s!"Invalid block-global value `{value}`; expected true or false"
  | foreignKey selector => s!"Cannot style objects of other blocks: `{selector}`"
  | foreignWithoutState reference selector =>
    s!"Block `{reference}` may only be used in a selector "
      ++ s!"through one of its global states: `{selector}`"
  | notFound path => s!"Cannot find `{path}`"
  | notGlobal path => s!"`{path}` is not global and cannot be used in selectors of other blocks"
  | output fault => fault.message
  | unmergeable first second =>
    s!"Cannot merge selectors with more than one combinator: `{first}` and `{second}`"
  | noStylesheet name => s!"Block `{name}` has no stylesheet to compile"
  | resolveArgument value => s!"Expected a single quoted block object reference in `{value}`"
  | resolveBetween property =>
    s!"Cannot resolve {property}: resolution must happen either "
      ++ s!"before or after all other values for {property}."
  | resolveWithoutValue property => s!"Cannot resolve {property} without a concrete value."
  | resolveOwnBlock => "Cannot resolve conflicts with your own block."
  | resolveAncestor => "Cannot resolve conflicts with ancestors of your own block."
  | resolveNothing property reference =>
    s!"There are no conflicting values for {property} found in any selectors targeting {reference}."
  | unminifiable reason => s!"Cannot minify output: {reason}"

/-- Why a block's record refuses a change. -/
inductive StateFault where
  | nameSetTwice (name : String)
  | foreignOwner (block : String)
  | stateOwnsState (state : String)
deriving DecidableEq, Repr

def StateFault.message : StateFault → String
  | nameSetTwice name => s!"Cannot set block name more than once (block `{name}`)"
  | foreignOwner block => s!"State owner does not belong to block `{block}`"
  | stateOwnsState state => s!"States cannot own states (state `{state}`)"

inductive ReadFault where
  | missing
  | notADirectory
  | isADirectory
  | nameTooLong
  | nulInName
deriving DecidableEq, Repr

def ReadFault.message : ReadFault → String
  | missing => "No such file or directory (os error 2)"
  | notADirectory => "Not a directory (os error 20)"
  | isADirectory => "Is a directory (os error 21)"
  | nameTooLong => "File name too long (os error 36)"
  | nulInName => "file name contained an unexpected NUL byte"

inductive ImportFault where
  | cycle (identifiers : List String)
  | noSuchFile (identifier : String)
  | unreadable (identifier : String) (fault : ReadFault)
  | noPreprocessor (language identifier : String)
deriving DecidableEq, Repr

def ImportFault.message : ImportFault → String
  | cycle identifiers => "Cyclic block dependency: " ++ " -> ".intercalate identifiers
  | noSuchFile identifier => s!"No such block file: {identifier}"
  | unreadable identifier fault => s!"Cannot read block file `{identifier}`: {fault.message}"
  | noPreprocessor language identifier =>
    s!"No preprocessor provided for {language} files: {identifier}"

/-- The kinds of errors that a tool from outside can report. -/
inductive ErrorKind where
  | block
  | path
  | implementation
  | importing
  | duplicateName
  | duplicateGuid
  | state
  | io
deriving DecidableEq, Repr

namespace ErrorKind

def label : ErrorKind → String
  | block => "InvalidBlockSyntax"
  | path => "MalformedBlockPath"
  | implementation => "ImplementationError"
  | importing => "ImportError"
  | duplicateName => "DuplicateBlockName"
  | duplicateGuid => "DuplicateGuid"
  | state => "StateError"
  | io => "IoError"

def canBePlaced : ErrorKind → Bool
  | block | path | implementation | importing => true
  | duplicateName | duplicateGuid | state | io => false

end ErrorKind

/-- What a tool from outside says is wrong. -/
structure ForeignError where
  kind : ErrorKind
  message : String
  place : Option Place
deriving DecidableEq, Repr

/-- An error while blocks are loaded or compiled. -/
inductive BlockError where
  | block (fault : BlockFault) (place : Option Place)
  | path (fault : PathFault) (place : Option Place)
  | implementation (missing : List (List String × String)) (place : Option Place)
  | importing (fault : ImportFault) (place : Option Place)
  | duplicateName (name owner identifier : String)
  | duplicateGuid (guid identifier owner : String)
  | noGuid (identifier : String)
  | state (fault : StateFault)
  | foreign (error : ForeignError)
deriving DecidableEq, Repr

/-- The objects that a block promises and does not have, interface by interface. -/
def missingMessage (missing : List (List String × String)) : String :=
  "Missing implementations for: "
    ++ "; ".intercalate (missing.map fun (objects, name) =>
      ", ".intercalate objects ++ " from " ++ name)

namespace BlockError

def unplaced (fault : BlockFault) : BlockError :=
  block fault none

def placed (fault : BlockFault) (filename : Option String) (location : Location) : BlockError :=
  block fault (some ⟨filename, location⟩)

def ofSyntaxError (filename : String) : SyntaxError → BlockError
  | .stylesheet line column fault => placed (.stylesheet fault) (some filename) ⟨line, column⟩
  | .selector _ column fault => placed (.stylesheet fault) (some filename) ⟨1, column⟩

/-- The error with a place, where it can have one and has none. -/
def locate (e : BlockError) (place : Place) : BlockError :=
  match e with
  | block fault none => block fault (some place)
  | path fault none => path fault (some place)
  | implementation missing none => implementation missing (some place)
  | importing fault none => importing fault (some place)
  | foreign e =>
    foreign (if e.kind.canBePlaced then { e with place := e.place <|> some place } else e)
  | e => e

def placeSuffix : Option Place → String
  | some place => s!" ({place.render})"
  | none => ""

def message : BlockError → String
  | block fault place => "[css-blocks] InvalidBlockSyntax: " ++ fault.message ++ placeSuffix place
  | path fault place => "[css-blocks] MalformedBlockPath: " ++ fault.message ++ placeSuffix place
  | implementation missing place =>
    "[css-blocks] ImplementationError: " ++ missingMessage missing ++ placeSuffix place
  | importing fault place => "[css-blocks] ImportError: " ++ fault.message ++ placeSuffix place
  | duplicateName name owner identifier =>
    s!"[css-blocks] DuplicateBlockName: Block name `{name}` "
      ++ s!"is used by both `{owner}` and `{identifier}`"
  | duplicateGuid guid identifier owner =>
    s!"[css-blocks] DuplicateGuid: GUID `{guid}` of `{identifier}` collides with `{owner}`"
  | noGuid identifier => s!"[css-blocks] DuplicateGuid: No GUID is left for `{identifier}`"
  | state fault => "[css-blocks] StateError: " ++ fault.message
  | foreign e => s!"[css-blocks] {e.kind.label}: {e.message}{placeSuffix e.place}"

end BlockError

end StyleBlocks
