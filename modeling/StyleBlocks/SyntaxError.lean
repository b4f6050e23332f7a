import StyleBlocks.Token.Printer

/-!
# Errors in the text of a stylesheet or selector

`Fault` lists what can be wrong with a text, and `Fault.message` words it.  A `SyntaxError` says
where: a stylesheet's fault has a line and a column, a selector's fault the selector and a column.
-/

namespace StyleBlocks

inductive Fault where
  | unexpectedToken (token : Token)
  | unexpectedEnd
  | ruleWithoutSelector
  | unclosedRule (text : String)
  | unexpectedCombinator (combinator : String)
  | afterPseudoElement (simple : String)
  | expectedSelector
  | expectedSingleSelector (found : Nat)
deriving DecidableEq, Repr

def Fault.message : Fault → String
  | unexpectedToken t => s!"Unexpected token `{t.render}`"
  | unexpectedEnd => "Unexpected end of input"
  | ruleWithoutSelector => "Rule without a selector"
  | unclosedRule text => s!"Unclosed rule `{text}`"
  | unexpectedCombinator c => s!"Unexpected combinator `{c}`"
  | afterPseudoElement s => s!"`{s}` cannot follow a pseudo-element"
  | expectedSelector => "Expected a selector"
  | expectedSingleSelector n => s!"Expected a single selector, found {n}"

inductive SyntaxError where
  | stylesheet (line column : Nat) (fault : Fault)
  | selector (text : String) (column : Nat) (fault : Fault)
deriving DecidableEq, Repr

namespace SyntaxError

def fault : SyntaxError → Fault
  | stylesheet _ _ f => f
  | selector _ _ f => f

def message : SyntaxError → String
  | stylesheet line column f => s!"Parse error at line {line}, column {column}: {f.message}"
  | selector text column f => s!"Invalid selector `{text}` at column {column}: {f.message}"

end SyntaxError

end StyleBlocks
