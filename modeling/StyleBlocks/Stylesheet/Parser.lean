import StyleBlocks.Component
import StyleBlocks.Stylesheet
import StyleBlocks.SyntaxError

/-!
# Reading stylesheets

The components of one level are read from left to right.  `Pending` is the statement that has
begun and not ended.  At the top level everything that is no at-rule and no comment is a style rule;
inside a body it is a style rule if a block of curly brackets comes before the next semicolon, and a
declaration otherwise.  Only the structure is read: selectors, values and what follows an at-rule's
name are kept as written, without the blanks around them.

* `numberNodes`: rules are numbered in the order in which their bodies end.
-/

namespace StyleBlocks

abbrev LocatedFault := Location × Fault

/-! ## Preludes and values -/

def spanText (seen : List Component) : String :=
  String.ofList (trim (Component.textOf seen.reverse))

/-- The text of components that are given last first, without the comments at its end. -/
def preludeText (seen : List Component) : String :=
  spanText (seen.dropWhile Component.isFiller)

/-- A value without `!important` at its end, and whether that was there. -/
def splitPriority (raw : List Char) : List Char × Bool :=
  let behind := (raw.reverse.takeWhile (· != '!')).reverse
  if raw.contains '!' && (trim behind).map Char.toLower == "important".toList then
    (trimEnd (raw.take (raw.length - behind.length - 1)), true)
  else (raw, false)

def valueOf (cs : List Component) : String × Bool :=
  let (value, important) := splitPriority (trim (Component.textOf cs))
  (String.ofList value, important)

def headLocation (stop : Location) : List Component → Location
  | [] => stop
  | c :: _ => c.location

/-- The declaration that `cs` holds before its semicolon, if it has one, or else before `stop`. -/
def readDeclaration (stop : Location) (cs : List Component) : Except LocatedFault Declaration :=
  match cs with
  | [] => .error (stop, .unexpectedEnd)
  | first :: rest =>
    match first.token with
    | .ident name =>
      match rest.dropWhile Component.isFiller with
      | [] => .error (stop, .unexpectedEnd)
      | colon :: rest' =>
        if colon.token = .colon then
          let (value, important) := valueOf (rest'.takeWhile (!·.isSemicolon))
          .ok ⟨name, value, important, first.location⟩
        else .error (headLocation stop rest, .unexpectedToken colon.token)
    | token => .error (first.location, .unexpectedToken token)

/-- A block of curly brackets comes before the next semicolon. -/
def startsRule : List Component → Bool
  | [] => false
  | c :: cs => if c.isCurly then true else if c.isSemicolon then false else startsRule cs

/-! ## Statements -/

/-- The statement that has begun, with its components so far, last first. -/
inductive Pending where
  | nothing
  | rule (location : Location) (seen : List Component)
  | atRule (name : String) (location : Location) (seen : List Component)
  | declaration (seen : List Component)
deriving Repr

/-- What the end of a level makes of the statement that has begun: a rule misses its body, anything
else is complete. -/
def Pending.finish (stop : Location) : Pending → Except LocatedFault (List Node)
  | nothing => .ok []
  | rule _ seen => .error (stop, .unclosedRule (spanText seen))
  | atRule name location seen => .ok [.statement ⟨name, spanText seen, location⟩]
  | declaration seen => do
    return [.declaration (← readDeclaration stop seen.reverse)]

/-- The statement that a component begins at the start of `cs`; spaces and semicolons begin none. -/
def Pending.start (top : Bool) (c : Component) (cs : List Component) : Pending :=
  match c.token with
  | .space _ | .semicolon | .comment _ => nothing
  | .atKeyword name => atRule name c.location []
  | _ => if top || startsRule (c :: cs) then rule c.location [c] else declaration [c]

mutual

def parseBlock : Component → Except LocatedFault (List Node)
  | .leaf _ => .ok []
  | .block _ _ body stop _ => parseNodes false stop .nothing body

/-- The nodes of a level that ends at `stop`, where `pending` has begun. -/
def parseNodes (top : Bool) (stop : Location) (pending : Pending) :
    List Component → Except LocatedFault (List Node)
  | [] => pending.finish stop
  | c :: cs =>
    match pending with
    | .nothing =>
      match c.token with
      | .comment text => do
        return .comment text c.location :: (← parseNodes top stop .nothing cs)
      | _ =>
        if c.isCurly then
          .error (c.location.advance c.lexeme.text, .ruleWithoutSelector)
        else parseNodes top stop (.start top c cs) cs
    | .rule location seen =>
      if c.isCurly then
        if (preludeText seen).isEmpty then
          .error (c.location.advance c.lexeme.text, .ruleWithoutSelector)
        else do
          let body ← parseBlock c
          return .rule ⟨0, preludeText seen, location⟩ body :: (← parseNodes top stop .nothing cs)
      else parseNodes top stop (.rule location (c :: seen)) cs
    | .atRule name location seen =>
      if c.isCurly then do
        let body ← parseBlock c
        return .group ⟨name, preludeText seen, location⟩ body
          :: (← parseNodes top stop .nothing cs)
      else if c.isSemicolon then do
        return .statement ⟨name, preludeText seen, location⟩
          :: (← parseNodes top stop .nothing cs)
      else parseNodes top stop (.atRule name location (c :: seen)) cs
    | .declaration seen =>
      if c.isSemicolon then do
        let decl ← readDeclaration stop (c :: seen).reverse
        return .declaration decl :: (← parseNodes top stop .nothing cs)
      else parseNodes top stop (.declaration (c :: seen)) cs

end

/-! ## Numbers of rules -/

mutual

/-- The node with its rules numbered from `n` on, and the number after the last one.  A rule's
number comes after those of the rules inside it. -/
def numberNode (n : Nat) : Node → Node × Nat
  | .rule head body =>
    let (body, n) := numberNodes n body
    (.rule { head with id := n } body, n + 1)
  | .group head body =>
    let (body, n) := numberNodes n body
    (.group head body, n)
  | .statement head => (.statement head, n)
  | .declaration d => (.declaration d, n)
  | .comment text location => (.comment text location, n)

def numberNodes (n : Nat) : List Node → List Node × Nat
  | [] => ([], n)
  | node :: nodes =>
    let (node, n) := numberNode n node
    let (nodes, n) := numberNodes n nodes
    (node :: nodes, n)

end

namespace Stylesheet

def parse (filename : Option String) (text : String) : Except SyntaxError Stylesheet :=
  let (components, stop) := Component.parse text.toList
  match parseNodes true stop .nothing components with
  | .error (location, fault) => .error (.stylesheet location.line location.column fault)
  | .ok nodes =>
    let (nodes, next) := numberNodes 0 nodes
    .ok ⟨nodes, filename, next⟩

end Stylesheet

end StyleBlocks
