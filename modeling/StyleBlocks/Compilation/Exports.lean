import StyleBlocks.ClassIndex
import StyleBlocks.Compilation

/-!
# Exported classes

For tools that read class names from a stylesheet, a rule `:export` lists the objects of the block
with their classes.
-/

namespace StyleBlocks

def IndexEntry.toDeclaration (e : IndexEntry) : Declaration :=
  .new e.exportName (" ".intercalate e.classes)

namespace Job

def exportClasses (c : Job) : Pass :=
  .ofChange fun sheet =>
    let (rule, sheet) := sheet.freshRule ":export" .nowhere
    let entries := (ClassIndex.ofBlock c.catalog c.block).entries
    let body := entries.map fun e => .declaration e.toDeclaration
    { sheet with nodes := sheet.nodes ++ [.rule rule.toRuleHead body] }

end Job

end StyleBlocks
