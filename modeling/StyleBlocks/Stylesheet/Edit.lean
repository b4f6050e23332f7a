import StyleBlocks.Stylesheet

/-!
# Changing the rules of a stylesheet

A walk over the style rules of a stylesheet, a rule before the rules inside it and nothing inside
`@keyframes`, that changes each rule it visits.  A visit may end the walk with an error: the
change of that rule is made, and all rules that come later stay as they are.

* `editNodes`, `Stylesheet.editRules`: the walk.
-/

namespace StyleBlocks

/-- A change of a rule: its selector, declarations before and behind what stands in it, and a change
of the declarations that stand in it. -/
structure RuleEdit where
  selector : String
  before : List Declaration
  change : Declaration → Declaration
  behind : List Declaration

namespace RuleEdit

def keep (head : RuleHead) : RuleEdit :=
  ⟨head.selector, [], id, []⟩

def applyHead (e : RuleEdit) (head : RuleHead) : RuleHead :=
  { head with selector := e.selector }

def applyNode (e : RuleEdit) : Node → Node
  | .declaration d => .declaration (e.change d)
  | node => node

def applyBody (e : RuleEdit) (body : List Node) : List Node :=
  e.before.map .declaration ++ body.map e.applyNode ++ e.behind.map .declaration

def apply (e : RuleEdit) (r : Rule) : Rule :=
  ⟨e.applyHead r.toRuleHead, e.applyBody r.body⟩

end RuleEdit

/-- What a walk leaves: its result as far as it came, its state, and the error that ended it. -/
structure Walked (α σ ε : Type) where
  result : α
  state : σ
  error : Option ε

abbrev Visit (σ ε : Type) := Rule → σ → Walked RuleEdit σ ε

mutual

def editNode {σ ε : Type} (f : Visit σ ε) (s : σ) : Node → Walked Node σ ε
  | .rule head body =>
    let visited := f ⟨head, body⟩ s
    let head := visited.result.applyHead head
    match visited.error with
    | some e => ⟨.rule head (visited.result.applyBody body), visited.state, some e⟩
    | none =>
      let inner := editNodes f visited.state body
      ⟨.rule head (visited.result.applyBody inner.result), inner.state, inner.error⟩
  | .group head body =>
    if head.holdsFrames then ⟨.group head body, s, none⟩
    else
      let inner := editNodes f s body
      ⟨.group head inner.result, inner.state, inner.error⟩
  | node => ⟨node, s, none⟩

def editNodes {σ ε : Type} (f : Visit σ ε) (s : σ) : List Node → Walked (List Node) σ ε
  | [] => ⟨[], s, none⟩
  | node :: nodes =>
    let first := editNode f s node
    match first.error with
    | some e => ⟨first.result :: nodes, first.state, some e⟩
    | none =>
      let others := editNodes f first.state nodes
      ⟨first.result :: others.result, others.state, others.error⟩

end

def Stylesheet.editRules {σ ε : Type} (sheet : Stylesheet) (f : Visit σ ε) (s : σ) :
    Walked Stylesheet σ ε :=
  let walked := editNodes f s sheet.nodes
  ⟨{ sheet with nodes := walked.result }, walked.state, walked.error⟩

end StyleBlocks
