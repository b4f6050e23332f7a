import StyleBlocks.Compilation
import StyleBlocks.Statement

/-!
# Debug statements

A debug statement at the top level lists the objects of a block and their classes.  It becomes a
comment with the listing, or is left out while the listing is printed.
-/

namespace StyleBlocks

def Printed.print (p : Printed) (channel : Channel) (lines : List String) : Printed :=
  let text := "\n".intercalate lines ++ "\n"
  match channel with
  | .stdout => { p with stdout := p.stdout ++ text }
  | .stderr => { p with stderr := p.stderr ++ text }
  | .comment => p

def listingComment (lines : List String) (location : Location) : Node :=
  .comment ("\n" ++ "\n".intercalate lines ++ "\n") location

namespace Job

def debugTarget (c : Job) (head : AtHead) : Except BlockError (Nat × Channel) :=
  match DebugRequest.parse head.params with
  | .error fault => .error (c.errorIn fault head.location)
  | .ok request =>
    if request.reference = "self" then .ok (c.block, request.channel)
    else
      match (c.catalog.block c.block).reference? request.reference with
      | some n => .ok (n, request.channel)
      | none => .error (c.errorIn (.unknownBlock request.reference) head.location)

/-- What a debug statement leaves in the stylesheet, and what is printed then. -/
def runDebug (c : Job) (printed : Printed) (head : AtHead) :
    Except BlockError (List Node × Printed) := do
  let (n, channel) ← c.debugTarget head
  let lines := c.catalog.listing n
  match channel with
  | .comment => return ([listingComment lines head.location], printed)
  | channel => return ([], printed.print channel lines)

def debugHead? : Node → Option AtHead
  | .group head _ | .statement head => if head.name = "block-debug" then some head else none
  | _ => none

def debugNodes (c : Job) (printed : Printed) :
    List Node → Walked (List Node) Printed BlockError
  | [] => ⟨[], printed, none⟩
  | node :: nodes =>
    match debugHead? node with
    | none =>
      let others := debugNodes c printed nodes
      ⟨node :: others.result, others.state, others.error⟩
    | some head =>
      match c.runDebug printed head with
      | .error e => ⟨node :: nodes, printed, some e⟩
      | .ok (left, printed) =>
        let others := debugNodes c printed nodes
        ⟨left ++ others.result, others.state, others.error⟩

def debugStatements (c : Job) : Pass := fun k =>
  let walked := c.debugNodes k.printed k.sheet.nodes
  ({ k with sheet := { k.sheet with nodes := walked.result }, printed := walked.state },
    walked.error)

end Job

end StyleBlocks
