import StyleBlocks.Stylesheet

/-!
# The rules of a stylesheet

The style rules of a stylesheet in the order of the text, a rule before the rules inside it, and
nothing inside `@keyframes`.

* `rulesUnder`: each rule with the at-rules around it, outermost first.
* `Stylesheet.rules`: the rules alone.
* `Stylesheet.foldRules`: a value built up rule by rule.
* `Stylesheet.atRules`: all at-rules, those inside `@keyframes` as well.
-/

namespace StyleBlocks

mutual

def rulesUnderNode (conditions : List AtHead) : Node → List (List AtHead × Rule)
  | .rule head body => (conditions, ⟨head, body⟩) :: rulesUnder conditions body
  | .group head body => if head.holdsFrames then [] else rulesUnder (conditions ++ [head]) body
  | _ => []

def rulesUnder (conditions : List AtHead) : List Node → List (List AtHead × Rule)
  | [] => []
  | node :: nodes => rulesUnderNode conditions node ++ rulesUnder conditions nodes

end

mutual

def rulesOfNode : Node → List Rule
  | .rule head body => ⟨head, body⟩ :: rulesOf body
  | .group head body => if head.holdsFrames then [] else rulesOf body
  | _ => []

def rulesOf : List Node → List Rule
  | [] => []
  | node :: nodes => rulesOfNode node ++ rulesOf nodes

end

mutual

def foldRulesOfNode {β : Type} (f : β → Rule → β) (b : β) : Node → β
  | .rule head body => foldRulesOf f (f b ⟨head, body⟩) body
  | .group head body => if head.holdsFrames then b else foldRulesOf f b body
  | _ => b

def foldRulesOf {β : Type} (f : β → Rule → β) (b : β) : List Node → β
  | [] => b
  | node :: nodes => foldRulesOf f (foldRulesOfNode f b node) nodes

end

mutual

def atRulesOfNode : Node → List AtHead
  | .rule _ body => atRulesOf body
  | .group head body => head :: atRulesOf body
  | .statement head => [head]
  | _ => []

def atRulesOf : List Node → List AtHead
  | [] => []
  | node :: nodes => atRulesOfNode node ++ atRulesOf nodes

end

namespace Stylesheet

def rules (s : Stylesheet) : List Rule :=
  rulesOf s.nodes

def foldRules {β : Type} (s : Stylesheet) (f : β → Rule → β) (b : β) : β :=
  foldRulesOf f b s.nodes

/-- The style rules, each with the at-rules around it, outermost first. -/
def conditionalRules (s : Stylesheet) : List (List AtHead × Rule) :=
  rulesUnder [] s.nodes

def atRules (s : Stylesheet) : List AtHead :=
  atRulesOf s.nodes

end Stylesheet

end StyleBlocks
