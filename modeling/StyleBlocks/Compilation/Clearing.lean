import StyleBlocks.Compilation
import StyleBlocks.Statement

/-!
# Taking the block language out

The at-rules of the block language are taken out at every depth, and so are its declarations that
stand in a style rule.  A rule that loses a declaration and has nothing but comments left goes as
well.
-/

namespace StyleBlocks

def Node.isBlockDeclaration : Node → Bool
  | .declaration d => languageProperties.contains d.property
  | _ => false

/-- What is left of a rule, where `body` was in it and `cleared` is left of the at-rules and rules
in it. -/
def clearRule (head : RuleHead) (body cleared : List Node) : List Node :=
  let kept := cleared.filter (!·.isBlockDeclaration)
  if body.any Node.isBlockDeclaration && kept.all Node.isComment then [] else [.rule head kept]

mutual

def clearNode : Node → List Node
  | .rule head body => clearRule head body (clearNodes body)
  | .group head body =>
    if languageAtRules.contains head.name then [] else [.group head (clearNodes body)]
  | .statement head => if languageAtRules.contains head.name then [] else [.statement head]
  | node => [node]

def clearNodes : List Node → List Node
  | [] => []
  | node :: nodes => clearNode node ++ clearNodes nodes

end

def clearPass : Pass :=
  .ofChange fun sheet => { sheet with nodes := clearNodes sheet.nodes }

end StyleBlocks
