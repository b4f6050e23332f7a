import StyleBlocks.Text.Location

/-!
# Stylesheets

The tree of a stylesheet: style rules, at-rules with and without a body, declarations and comments,
in the order of the text.  Selectors, the text behind an at-rule's name and values are kept as
written.  Each rule has a number that no other rule of the same stylesheet has and that it keeps
while the stylesheet is changed.
-/

namespace StyleBlocks

structure Declaration where
  property : String
  value : String
  important : Bool
  location : Location
deriving DecidableEq, Repr, Inhabited

/-- What stands before the body of a style rule, and the rule's number. -/
structure RuleHead where
  id : Nat
  selector : String
  location : Location
deriving DecidableEq, Repr, Inhabited

/-- The name of an at-rule and what follows the name. -/
structure AtHead where
  name : String
  params : String
  location : Location
deriving DecidableEq, Repr, Inhabited

/-- A node of a stylesheet: a style rule, an at-rule with a body (`group`) or without one
(`statement`), a declaration, or a comment. -/
inductive Node where
  | rule (head : RuleHead) (body : List Node)
  | group (head : AtHead) (body : List Node)
  | statement (head : AtHead)
  | declaration (decl : Declaration)
  | comment (text : String) (location : Location)
deriving Repr, Inhabited

structure Rule extends RuleHead where
  body : List Node
deriving Repr, Inhabited

structure Stylesheet where
  nodes : List Node
  filename : Option String
  nextRule : Nat
deriving Repr, Inhabited

/-- Rules inside `@keyframes`, with or without a vendor's name before it, are no style rules. -/
def AtHead.holdsFrames (h : AtHead) : Bool :=
  (lowercase h.name).endsWith "keyframes"

namespace Declaration

def new (property value : String) : Declaration :=
  ⟨property, value, false, .nowhere⟩

def writtenValue (d : Declaration) : String :=
  if d.important then d.value ++ " !important" else d.value

end Declaration

namespace Node

def declaration? : Node → Option Declaration
  | declaration d => some d
  | _ => none

def isComment : Node → Bool
  | comment .. => true
  | _ => false

end Node

namespace Rule

def toNode (r : Rule) : Node :=
  .rule r.toRuleHead r.body

/-- The declarations that stand in the rule itself, not in a rule inside it. -/
def declarations (r : Rule) : List Declaration :=
  r.body.filterMap Node.declaration?

def isEmpty (r : Rule) : Bool :=
  r.body.all Node.isComment

end Rule

namespace Stylesheet

/-- A rule without a body, and the stylesheet with the rule's number taken. -/
def freshRule (s : Stylesheet) (selector : String) (location : Location) : Rule × Stylesheet :=
  (⟨⟨s.nextRule, selector, location⟩, []⟩, { s with nextRule := s.nextRule + 1 })

end Stylesheet

end StyleBlocks
