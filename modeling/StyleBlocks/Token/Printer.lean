import StyleBlocks.Token

/-!
# Printing tokens

How names, strings and whole tokens are written so that they read back: a character that would
change the meaning stands behind a backslash, a control character as its hexadecimal code and a
space.
-/

namespace StyleBlocks

/-- What stands for a character that cannot be written or read. -/
def replacementChar : Char := '�'

def hexEscape (c : Char) : List Char :=
  '\\' :: Nat.toDigits 16 c.toNat ++ [' ']

def isControl (c : Char) : Bool :=
  c.toNat < 0x20 || c.toNat == 0x7F

/-- The characters that stand for themselves anywhere in a name. -/
def isNameChar (c : Char) : Bool :=
  c.isAlphanum || c == '_' || c == '-' || 0x80 ≤ c.toNat

def writeNameChar (c : Char) : List Char :=
  if isNameChar c then [c]
  else if c == '\x00' then [replacementChar]
  else if isControl c then hexEscape c
  else ['\\', c]

/-- A text as a name, which may start with a digit. -/
def writeName (s : List Char) : List Char :=
  s.flatMap writeNameChar

/-- A name whose first character may not be a digit. -/
def writeNameStart : List Char → List Char
  | [] => []
  | c :: s => if c.isDigit then hexEscape c ++ writeName s else writeName (c :: s)

/-- A text as an identifier: one hyphen may come first, but not alone and not before a digit. -/
def writeIdentifier : List Char → List Char
  | '-' :: '-' :: s => '-' :: '-' :: writeName s
  | ['-'] => ['\\', '-']
  | '-' :: s => '-' :: writeNameStart s
  | s => writeNameStart s

def writeStringChar (c : Char) : List Char :=
  if c == '"' || c == '\\' then ['\\', c]
  else if c == '\x00' then [replacementChar]
  else if isControl c then hexEscape c
  else [c]

def writeString (s : List Char) : List Char :=
  '"' :: s.flatMap writeStringChar ++ ['"']

def writeUrlChar (c : Char) : List Char :=
  if c.toNat ≤ 0x20 || c == '\x7F' then hexEscape c
  else if ['(', ')', '"', '\'', '\\'].contains c then ['\\', c]
  else [c]

/-- A unit behind a number.  One that would read as an exponent has its first letter escaped. -/
def writeUnit : List Char → List Char
  | [c] => if c == 'e' || c == 'E' then "\\65 ".toList else writeIdentifier [c]
  | c :: '-' :: s =>
    if c == 'e' || c == 'E' then "\\65 ".toList ++ writeName ('-' :: s)
    else writeIdentifier (c :: '-' :: s)
  | s => writeIdentifier s

namespace Token

def renderChars : Token → List Char
  | ident name => writeIdentifier name.toList
  | atKeyword name => '@' :: writeIdentifier name.toList
  | hash name => '#' :: writeName name.toList
  | idHash name => '#' :: writeIdentifier name.toList
  | string value => writeString value.toList
  | badString value => '"' :: value.toList.flatMap writeStringChar
  | url value => "url(".toList ++ value.toList.flatMap writeUrlChar ++ [')']
  | badUrl text => "url(".toList ++ text.toList ++ [')']
  | number value => value.render
  | percentage value => value.renderPercentage ++ ['%']
  | dimension value unit => value.render ++ writeUnit unit.toList
  | space text => text.toList
  | comment text => "/*".toList ++ text.toList ++ "*/".toList
  | colon => [':']
  | semicolon => [';']
  | comma => [',']
  | includeMatch => "~=".toList
  | dashMatch => "|=".toList
  | prefixMatch => "^=".toList
  | suffixMatch => "$=".toList
  | substringMatch => "*=".toList
  | commentOpen => "<!--".toList
  | commentClose => "-->".toList
  | delim c => [c]
  | function name => writeIdentifier name.toList ++ ['(']
  | opener b => [b.opening]
  | closer b => [b.closing]

def render (t : Token) : String :=
  String.ofList t.renderChars

end Token

end StyleBlocks
