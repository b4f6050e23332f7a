import StyleBlocks.Token.Lexer

/-!
# Components

The tokens of a text, with everything between a bracket and the one that closes it put into one
block.  A closing bracket closes only the innermost open one; any other closing bracket is a token
like the rest, and a bracket that nothing closes reaches to the end of the text.
-/

namespace StyleBlocks

/-- A token that opens no block, or a block.  The location `stop` is that of the closing bracket,
or of the end of the text if there is none; `close` is the closing bracket's text. -/
inductive Component where
  | leaf (lexeme : Lexeme)
  | block (opener : Lexeme) (bracket : Bracket) (body : List Component) (stop : Location)
      (close : List Char)
deriving Repr

namespace Component

def lexeme : Component → Lexeme
  | leaf l => l
  | block l .. => l

def token (c : Component) : Token :=
  c.lexeme.token

def location (c : Component) : Location :=
  c.lexeme.location

mutual

def text : Component → List Char
  | leaf l => l.text
  | block l _ body _ close => l.text ++ textOf body ++ close

def textOf : List Component → List Char
  | [] => []
  | c :: cs => c.text ++ textOf cs

end

def isCurly : Component → Bool
  | block _ .curly .. => true
  | _ => false

def isFiller (c : Component) : Bool :=
  c.token.isFiller

def isComment (c : Component) : Bool :=
  c.token.isComment

def isSemicolon (c : Component) : Bool :=
  c.token == .semicolon

end Component

/-- A bracket that is not closed yet, with the components before it in its own level, last first. -/
structure OpenBlock where
  opener : Lexeme
  bracket : Bracket
  before : List Component
deriving Repr

/-- What is read of a text: the open brackets, innermost first, and the components of the innermost
level, last first. -/
structure Nesting where
  opened : List OpenBlock
  level : List Component
deriving Repr

namespace Nesting

def empty : Nesting := ⟨[], []⟩

def close (b : OpenBlock) (outer : List OpenBlock) (level : List Component) (stop : Location)
    (text : List Char) : Nesting :=
  ⟨outer, .block b.opener b.bracket level.reverse stop text :: b.before⟩

def step (n : Nesting) (l : Lexeme) : Nesting :=
  match l.token.opens with
  | some bracket => ⟨⟨l, bracket, n.level⟩ :: n.opened, []⟩
  | none =>
    match n.opened with
    | b :: outer =>
      if l.token.closes = some b.bracket then close b outer n.level l.location l.text
      else ⟨n.opened, .leaf l :: n.level⟩
    | [] => ⟨[], .leaf l :: n.level⟩

def finish (stop : Location) : List OpenBlock → List Component → List Component
  | [], level => level.reverse
  | b :: outer, level =>
    finish stop outer (.block b.opener b.bracket level.reverse stop [] :: b.before)

end Nesting

namespace Component

def group (stop : Location) (ls : List Lexeme) : List Component :=
  let n := ls.foldl Nesting.step Nesting.empty
  Nesting.finish stop n.opened n.level

def parse (s : List Char) : List Component × Location :=
  let stop := Location.start.advance s
  (group stop (Lexeme.list .start s), stop)

end Component

end StyleBlocks
