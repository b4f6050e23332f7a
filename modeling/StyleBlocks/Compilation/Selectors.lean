import StyleBlocks.Compilation

/-!
# Output selectors

Each rule gets a selector that is written with output classes.
-/

namespace StyleBlocks

namespace Job

def compileRule (c : Job) : Visit SelectorTable BlockError := fun rule table =>
  let head := rule.toRuleHead
  match c.selectors table head with
  | (.error e, table) => ⟨.keep head, table, some e⟩
  | (.ok selectors, table) =>
    match selectors.mapM (c.catalog.compileSelector c.block) with
    | .error fault => ⟨.keep head, table, some (c.errorIn (.output fault) head.location)⟩
    | .ok selectors =>
      ⟨{ RuleEdit.keep head with selector := renderSelectors selectors },
        table.drop c.block head.id, none⟩

def compileSelectors (c : Job) : Pass :=
  .ofVisit c.compileRule

end Job

end StyleBlocks
