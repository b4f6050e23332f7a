import StyleBlocks.Token.Lexer

/-!
# Selectors

A selector is a chain of compounds joined by combinators.  Its last compound is the key: the element
that a rule styles.  The compounds before it are the context.
-/

namespace StyleBlocks

/-- How a compound stands to the next one. -/
inductive Combinator where
  | descendant
  | child
  | adjacent
  | sibling
deriving DecidableEq, Repr

namespace Combinator

def symbol : Combinator → String
  | descendant => " "
  | child => ">"
  | adjacent => "+"
  | sibling => "~"

/-- The combinator between two compounds: all but the space have spaces around them. -/
def render : Combinator → String
  | descendant => " "
  | c => " " ++ c.symbol ++ " "

def isImmediate : Combinator → Bool
  | child | adjacent => true
  | descendant | sibling => false

def isHorizontal : Combinator → Bool
  | adjacent | sibling => true
  | descendant | child => false

def isVertical : Combinator → Bool
  | descendant | child => true
  | adjacent | sibling => false

end Combinator

inductive AttributeMatcher where
  | equals
  | includes
  | dashMatch
  | prefixMatch
  | suffixMatch
  | substringMatch
deriving DecidableEq, Repr

def AttributeMatcher.symbol : AttributeMatcher → String
  | equals => "="
  | includes => "~="
  | dashMatch => "|="
  | prefixMatch => "^="
  | suffixMatch => "$="
  | substringMatch => "*="

structure AttributeTest where
  operator : AttributeMatcher
  value : String
  ignoreCase : Bool
deriving DecidableEq, Repr

/-- An attribute in brackets.  The empty namespace is written as a bar without a name before it. -/
structure Attribute where
  space : Option String
  name : String
  operator : Option AttributeMatcher
  value : Option String
  ignoreCase : Bool
deriving DecidableEq, Repr

/-- What the attribute is tested for, if it has both an operator and a value. -/
def Attribute.test (a : Attribute) : Option AttributeTest :=
  match a.operator, a.value with
  | some operator, some value => some ⟨operator, value, a.ignoreCase⟩
  | _, _ => none

/-- One condition on an element. -/
inductive Simple where
  | tag (name : String)
  | universal
  | className (name : String)
  | id (name : String)
  | hasAttribute (attr : Attribute)
  | pseudoClass (name : String) (argument : Option String)
  | pseudoElement (name : String) (argument : Option String)
deriving DecidableEq, Repr

abbrev Compound := List Simple

/-- A chain of compounds, the key last. -/
structure Selector where
  context : List (Compound × Combinator)
  key : Compound
deriving DecidableEq, Repr

/-! ## Text -/

/-- The text is exactly one identifier, written without escapes. -/
def isIdentifier (text : String) : Bool :=
  match Lexeme.list .start text.toList with
  | [l] => l.token == .ident text
  | _ => false

/-- An attribute's text.  The value has quotes unless it is an identifier. -/
def Attribute.render (a : Attribute) : String :=
  let space := match a.space with
    | some s => s ++ "|"
    | none => ""
  let test := match a.test with
    | some t =>
      t.operator.symbol
        ++ (if isIdentifier t.value then t.value else String.ofList (writeString t.value.toList))
        ++ (if t.ignoreCase then " i" else "")
    | none => ""
  "[" ++ space ++ a.name ++ test ++ "]"

def renderArgument : Option String → String
  | some argument => "(" ++ argument ++ ")"
  | none => ""

namespace Simple

def render : Simple → String
  | tag name => name
  | universal => "*"
  | className name => "." ++ String.ofList (writeIdentifier name.toList)
  | id name => "#" ++ String.ofList (writeIdentifier name.toList)
  | hasAttribute a => a.render
  | pseudoClass name argument => ":" ++ name ++ renderArgument argument
  | pseudoElement name argument => "::" ++ name ++ renderArgument argument

def isPseudoElement : Simple → Bool
  | pseudoElement .. => true
  | _ => false

def elementName? : Simple → Option String
  | pseudoElement name _ => some name
  | _ => none

def className? : Simple → Option String
  | className name => some name
  | _ => none

def attribute? : Simple → Option Attribute
  | hasAttribute a => some a
  | _ => none

end Simple

namespace Compound

def render (c : Compound) : String :=
  String.join (c.map Simple.render)

def pseudoElement? (c : Compound) : Option Simple :=
  c.find? Simple.isPseudoElement

def pseudoName? (c : Compound) : Option String :=
  c.findSome? Simple.elementName?

def classes (c : Compound) : List String :=
  c.filterMap Simple.className?

def attributes (c : Compound) : List Attribute :=
  c.filterMap Simple.attribute?

def carriesPseudoClass (c : Compound) (name : String) : Bool :=
  c.any fun
    | .pseudoClass n _ => n == name
    | _ => false

end Compound

namespace Selector

def single (key : Compound) : Selector :=
  ⟨[], key⟩

def length (s : Selector) : Nat :=
  s.context.length + 1

def compounds (s : Selector) : List Compound :=
  s.context.map Prod.fst ++ [s.key]

def combinators (s : Selector) : List Combinator :=
  s.context.map Prod.snd

def render (s : Selector) : String :=
  String.join (s.context.map fun (compound, combinator) => compound.render ++ combinator.render)
    ++ s.key.render

/-- The selector as the context of one more compound. -/
def extended (s : Selector) (combinator : Combinator) (key : Compound) : Selector :=
  ⟨s.context ++ [(s.key, combinator)], key⟩

def concat (s : Selector) (combinator : Combinator) (t : Selector) : Selector :=
  ⟨s.context ++ (s.key, combinator) :: t.context, t.key⟩

/-- The context as a selector of its own with the combinator behind it, if there is a context, and
the key. -/
def split (s : Selector) : Option (Selector × Combinator) × Compound :=
  (s.context.getLast?.map fun (key, combinator) => (⟨s.context.dropLast, key⟩, combinator), s.key)

end Selector

def renderSelectors (selectors : List Selector) : String :=
  ",\n".intercalate (selectors.map Selector.render)

end StyleBlocks
