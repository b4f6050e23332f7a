import StyleBlocks.Token.Numeral

/-!
# Tokens

The words of a stylesheet.  A name is held as the text it stands for, with its escapes read; spaces
and comments are tokens too, so that a text can be put together again from its tokens.
-/

namespace StyleBlocks

inductive Bracket where
  | round
  | square
  | curly
deriving DecidableEq, Repr

namespace Bracket

def opening : Bracket → Char
  | round => '('
  | square => '['
  | curly => '\x7b'

def closing : Bracket → Char
  | round => ')'
  | square => ']'
  | curly => '\x7d'

end Bracket

/-- A token of a stylesheet.

* `hash` is a `#` before a name that is no identifier, `idHash` one before an identifier.
* `badString` is a string that a line end breaks off; `badUrl` is an unquoted `url(` with a
  character in it that it cannot hold.
* `function` opens a round bracket behind a name. -/
inductive Token where
  | ident (name : String)
  | atKeyword (name : String)
  | hash (name : String)
  | idHash (name : String)
  | string (value : String)
  | badString (value : String)
  | url (value : String)
  | badUrl (text : String)
  | number (value : Numeral)
  | percentage (value : Numeral)
  | dimension (value : Numeral) (unit : String)
  | space (text : String)
  | comment (text : String)
  | colon
  | semicolon
  | comma
  | includeMatch
  | dashMatch
  | prefixMatch
  | suffixMatch
  | substringMatch
  | commentOpen
  | commentClose
  | delim (char : Char)
  | function (name : String)
  | opener (bracket : Bracket)
  | closer (bracket : Bracket)
deriving DecidableEq, Repr

namespace Token

def opens : Token → Option Bracket
  | function _ => some .round
  | opener b => some b
  | _ => none

def closes : Token → Option Bracket
  | closer b => some b
  | _ => none

def isComment : Token → Bool
  | comment _ => true
  | _ => false

/-- Spaces and comments, which say nothing between other tokens. -/
def isFiller : Token → Bool
  | space _ | comment _ => true
  | _ => false

end Token

end StyleBlocks
