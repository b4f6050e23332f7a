import StyleBlocks.Text.Blank

/-!
# File names

Paths are read as lists of components.  Empty components and all `.` but a leading one are dropped.
Paths are made normal without a look at any disk: `..` takes the component before it away.
-/

namespace StyleBlocks

/-- A component of a path, in the order in which paths are sorted. -/
inductive PathPart where
  | root
  | here
  | up
  | name (name : String)
deriving DecidableEq, Repr

namespace PathPart

/-- The order of components: the root, then `.`, then `..`, then names by their characters. -/
def before : PathPart → PathPart → Bool
  | _, root => false
  | root, _ => true
  | _, here => false
  | here, _ => true
  | _, up => false
  | up, _ => true
  | name a, name b => a < b

instance : LT PathPart := ⟨fun a b => a.before b = true⟩

instance : DecidableLT PathPart :=
  fun a b => inferInstanceAs (Decidable (a.before b = true))

def render : PathPart → String
  | root => "/"
  | here => "."
  | up => ".."
  | name s => s

end PathPart

namespace FileName

/-- The pieces of a text between the characters with the property `p`. -/
def pieces (p : Char → Bool) (s : List Char) : List (List Char) :=
  match s with
  | [] => [[]]
  | c :: s =>
    if p c then [] :: pieces p s
    else
      match pieces p s with
      | first :: others => (c :: first) :: others
      | [] => [[c]]

/-- What a piece between slashes stands for, if it is not the first one. -/
def partOf? (piece : List Char) : Option PathPart :=
  if piece.isEmpty || piece == ['.'] then none
  else if piece == ['.', '.'] then some .up
  else some (.name (String.ofList piece))

def components (path : String) : List PathPart :=
  match pieces (· == '/') path.toList with
  | [] => []
  | first :: others =>
    let start := if path.startsWith "/" then [.root]
      else if first == ['.'] then [.here]
      else (partOf? first).toList
    start ++ others.filterMap partOf?

def isAbsolute (path : String) : Bool :=
  path.startsWith "/"

def render : List PathPart → String
  | .root :: parts => "/" ++ "/".intercalate (parts.map PathPart.render)
  | parts => "/".intercalate (parts.map PathPart.render)

/-- One more component behind those given last first.  `..` takes a component away, unless there is
none but the root. -/
def pushPart (parts : List PathPart) : PathPart → List PathPart
  | .here => parts
  | .up =>
    match parts with
    | [] | .root :: _ => .up :: parts
    | _ :: rest => rest
  | part => part :: parts

def simplify (parts : List PathPart) : List PathPart :=
  (parts.foldl pushPart []).reverse

def parent (parts : List PathPart) : List PathPart :=
  match parts.getLast? with
  | none | some .root => []
  | some _ => parts.dropLast

/-- The identifier of a file: a path from the root is taken as it is, any other one from the
directory of the file that names it or, if there is none, from `rootDir`. -/
def identify (origin : Option String) (path rootDir : String) : String :=
  if isAbsolute path then render (simplify (components path))
  else
    let base := match origin with
      | some file => parent (components file)
      | none => components rootDir
    render (simplify (base ++ components path))

def fileExtension (path : String) : String :=
  match (components path).getLast? with
  | some (.name file) =>
    let chars := file.toList
    let behind := (chars.reverse.takeWhile (· != '.')).reverse
    if behind.length + 1 < chars.length then String.ofList behind else ""
  | _ => ""

end FileName

/-- The name of a block that does not give itself one: its file's name up to the first point. -/
def nameFromFile (identifier : String) : String :=
  let file := (FileName.pieces (fun c => c == '/' || c == '\\') identifier.toList).getLast?
  String.ofList ((file.getD []).takeWhile (· != '.'))

inductive Language where
  | css
  | scss
  | sass
  | less
  | stylus
  | other (name : String)
deriving DecidableEq, Repr

namespace Language

def ofName : String → Language
  | "css" => css
  | "scss" => scss
  | "sass" => sass
  | "less" => less
  | "stylus" => stylus
  | name => other name

def ofPath (path : String) : Language :=
  match lowercase (FileName.fileExtension path) with
  | "styl" => stylus
  | name => ofName name

def render : Language → String
  | css => "css"
  | scss => "scss"
  | sass => "sass"
  | less => "less"
  | stylus => "stylus"
  | other name => name

end Language

end StyleBlocks
