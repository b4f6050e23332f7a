import StyleBlocks.Catalog.Classes
import StyleBlocks.Selector.Table
import StyleBlocks.Stylesheet.Edit

/-!
# Compilations

A stylesheet is compiled in passes.  A pass changes the stylesheet, may print something, and may
fail; what it did before it failed stays.

* `Pass`, `Pass.sequence`: one pass, and passes one after the other.
-/

namespace StyleBlocks

structure Printed where
  stdout : String := ""
  stderr : String := ""
deriving DecidableEq, Repr, Inhabited

/-- A stylesheet on its way through the passes. -/
structure Compilation where
  sheet : Stylesheet
  table : SelectorTable := .empty
  printed : Printed := {}
deriving Repr

/-- A pass: what it leaves, and the error that ended it. -/
abbrev Pass := Compilation → Compilation × Option BlockError

namespace Pass

def sequence : List Pass → Pass
  | [], c => (c, none)
  | pass :: passes, c =>
    match pass c with
    | (c, some e) => (c, some e)
    | (c, none) => sequence passes c

def ofChange (f : Stylesheet → Stylesheet) : Pass :=
  fun c => ({ c with sheet := f c.sheet }, none)

def ofVisit (f : Visit SelectorTable BlockError) : Pass := fun c =>
  let walked := c.sheet.editRules f c.table
  ({ c with sheet := walked.result, table := walked.state }, walked.error)

end Pass

/-- What is compiled: the stylesheet of the block with number `block`, called `filename` in
messages. -/
structure Job where
  catalog : Catalog
  block : Nat
  filename : Option String

namespace Job

def errorIn (c : Job) (fault : BlockFault) (location : Location) : BlockError :=
  .placed fault c.filename location

def selectors (c : Job) (table : SelectorTable) (head : RuleHead) :
    Except BlockError (List Selector) × SelectorTable :=
  let (selectors, table) := table.get c.block head
  (selectors.mapError fun e => c.errorIn (.noSelector e) head.location, table)

end Job

end StyleBlocks
