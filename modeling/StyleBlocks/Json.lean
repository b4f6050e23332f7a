/-!
# JSON

Reading and writing JSON documents.  The reader takes exactly the grammar of the standard and
nothing around it but white space.  An escape that stands for no character makes a string without
a value; such a string is refused only where its value is asked for.  Numbers are never asked for,
so only their form is read.
-/

namespace StyleBlocks

inductive Json where
  | null
  | bool (value : Bool)
  | number
  | string (value : Option String)
  | array (elements : List Json)
  | object (members : List (Option String × Json))
deriving Repr

namespace Json

/-! ## Reading -/

def isJsonSpace (c : Char) : Bool :=
  c == ' ' || c == '\n' || c == '\t' || c == '\r'

def skipSpace (s : List Char) : List Char :=
  s.dropWhile isJsonSpace

def hexQuad? : List Char → Option (Nat × List Char)
  | a :: b :: c :: d :: s => do
    let digits ← [a, b, c, d].mapM hexValue?
    return (digits.foldl (fun v d => 16 * v + d) 0, s)
  | _ => none
where
  hexValue? (c : Char) : Option Nat :=
    if c.isDigit then some (c.toNat - '0'.toNat)
    else if 'a' ≤ c.toLower && c.toLower ≤ 'f' then some (c.toLower.toNat - 'a'.toNat + 10)
    else none

/-- The character of a pair of units of sixteen bits. -/
def pairChar? (hi lo : Nat) : Option Char :=
  if 0xD800 ≤ hi && hi < 0xDC00 && 0xDC00 ≤ lo && lo < 0xE000 then
    some (Char.ofNat (0x10000 + (hi - 0xD800) * 0x400 + (lo - 0xDC00)))
  else none

/-- A character that stands behind a backslash for another one. -/
def simpleEscape? : Char → Option Char
  | '"' => some '"'
  | '\\' => some '\\'
  | '/' => some '/'
  | 'b' => some '\x08'
  | 'f' => some '\x0c'
  | 'n' => some '\n'
  | 'r' => some '\r'
  | 't' => some '\t'
  | _ => none

/-- The rest of a string: its value, if every escape stands for a character, and what follows the
closing quote. -/
def readString : Nat → List Char → Option (Option (List Char) × List Char)
  | 0, _ => none
  | _, [] => none
  | fuel + 1, c :: s =>
    if c == '"' then some (some [], s)
    else if c.toNat < 0x20 then none
    else if c == '\\' then
      match s with
      | 'u' :: s => do
        let (hi, s) ← hexQuad? s
        if hi < 0xD800 || 0xE000 ≤ hi then
          let (value, rest) ← readString fuel s
          return (value.map (Char.ofNat hi :: ·), rest)
        else
          match s with
          | '\\' :: 'u' :: t =>
            let (lo, t) ← hexQuad? t
            match pairChar? hi lo with
            | some d =>
              let (value, rest) ← readString fuel t
              return (value.map (d :: ·), rest)
            | none =>
              let (_, rest) ← readString fuel s
              return (none, rest)
          | s =>
            let (_, rest) ← readString fuel s
            return (none, rest)
      | e :: s => do
        let d ← simpleEscape? e
        let (value, rest) ← readString fuel s
        return (value.map (d :: ·), rest)
      | [] => none
    else do
      let (value, rest) ← readString fuel s
      return (value.map (c :: ·), rest)

def skipDigits (s : List Char) : Option (List Char) :=
  if s.head?.any Char.isDigit then some (s.dropWhile Char.isDigit) else none

/-- A number: no zero before other digits, a digit on each side of the point. -/
def skipNumber (s : List Char) : Option (List Char) := do
  let s := match s with
    | '-' :: s => s
    | s => s
  let s ← match s with
    | '0' :: s => if s.head?.any Char.isDigit then none else some s
    | s => skipDigits s
  let s ← match s with
    | '.' :: s => skipDigits s
    | s => some s
  match s with
  | 'e' :: s | 'E' :: s =>
    match s with
    | '+' :: s | '-' :: s => skipDigits s
    | s => skipDigits s
  | s => some s

def dropWord (word s : List Char) : Option (List Char) :=
  if s.take word.length == word then some (s.drop word.length) else none

mutual

def readValue : Nat → List Char → Option (Json × List Char)
  | 0, _ => none
  | fuel + 1, s =>
    match skipSpace s with
    | 'n' :: s => (dropWord "ull".toList s).map (null, ·)
    | 't' :: s => (dropWord "rue".toList s).map (bool true, ·)
    | 'f' :: s => (dropWord "alse".toList s).map (bool false, ·)
    | '"' :: s => do
      let (value, s) ← readString (s.length + 1) s
      return (string (value.map String.ofList), s)
    | '[' :: s =>
      match skipSpace s with
      | ']' :: s => some (array [], s)
      | s => do
        let (elements, s) ← readElements fuel s
        return (array elements, s)
    | '\x7b' :: s =>
      match skipSpace s with
      | '\x7d' :: s => some (object [], s)
      | s => do
        let (members, s) ← readMembers fuel s
        return (object members, s)
    | s => (skipNumber s).map (number, ·)

def readElements : Nat → List Char → Option (List Json × List Char)
  | 0, _ => none
  | fuel + 1, s => do
    let (first, s) ← readValue fuel s
    match skipSpace s with
    | ',' :: s =>
      let (others, s) ← readElements fuel s
      return (first :: others, s)
    | ']' :: s => return ([first], s)
    | _ => none

def readMembers : Nat → List Char → Option (List (Option String × Json) × List Char)
  | 0, _ => none
  | fuel + 1, s =>
    match skipSpace s with
    | '"' :: s => do
      let (key, s) ← readString (s.length + 1) s
      let key := key.map String.ofList
      match skipSpace s with
      | ':' :: s =>
        let (value, s) ← readValue fuel s
        match skipSpace s with
        | ',' :: s =>
          let (others, s) ← readMembers fuel s
          return ((key, value) :: others, s)
        | '\x7d' :: s => return ([(key, value)], s)
        | _ => none
      | _ => none
    | _ => none

end

/-- The document in a text.  Each step of the reader takes a character, so the number of characters
bounds the steps. -/
def parse (text : String) : Option Json := do
  let s := text.toList
  let (value, rest) ← readValue (2 * s.length + 2) s
  if (skipSpace rest).isEmpty then some value else none

/-! ## Writing -/

def writeChar (c : Char) : List Char :=
  match c with
  | '"' => "\\\"".toList
  | '\\' => "\\\\".toList
  | '\x08' => "\\b".toList
  | '\x0c' => "\\f".toList
  | '\n' => "\\n".toList
  | '\r' => "\\r".toList
  | '\t' => "\\t".toList
  | c =>
    if c.toNat < 0x20 then
      "\\u00".toList ++ [Nat.digitChar (c.toNat / 16), Nat.digitChar (c.toNat % 16)]
    else [c]

def writeText (s : String) : String :=
  "\"" ++ String.ofList (s.toList.flatMap writeChar) ++ "\""

def margin (depth : Nat) : String :=
  String.ofList (List.replicate (2 * depth) ' ')

/-- Items between brackets, each on a line of its own. -/
def writeItems (opening closing : String) (depth : Nat) (items : List String) : String :=
  if items.isEmpty then opening ++ closing
  else
    opening ++ "\n" ++ ",\n".intercalate (items.map (margin (depth + 1) ++ ·)) ++ "\n"
      ++ margin depth ++ closing

end Json

end StyleBlocks
