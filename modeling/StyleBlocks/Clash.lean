import StyleBlocks.Catalog

/-!
# Conflicts

Two objects conflict where both set the same property, for the same pseudo-element.
-/

namespace StyleBlocks

/-- How two lists of values for one property relate. -/
inductive Clash where
  | noConflict
  | sameValues
  | conflict
deriving DecidableEq, Repr

/-- The stronger of two relations: a conflict outweighs everything, and no conflict nothing. -/
def Clash.join : Clash → Clash → Clash
  | conflict, _ | _, conflict => conflict
  | sameValues, _ | _, sameValues => sameValues
  | noConflict, noConflict => noConflict

def Declaration.agrees (a b : Declaration) : Bool :=
  a.property == b.property && a.value == b.value && a.important == b.important

/-- Compares values in order and with their priority. -/
def clashOf (own other : List Declaration) : Clash :=
  if own.isEmpty || other.isEmpty then .noConflict
  else if own.length == other.length && (own.zip other).all (fun (a, b) => a.agrees b) then
    .sameValues
  else .conflict

/-- The properties that two objects both touch, by pseudo-element; pseudo-elements without one are
left out. -/
def sharedProperties (g : Catalog) (a b : ObjectId) : List (Option String × List String) :=
  match g.object? a, g.object? b with
  | some s, some t =>
    s.contributions.pseudoKeys.filterMap fun pseudo =>
      let shared :=
        (s.contributions.touched pseudo).filter (t.contributions.touched pseudo).contains
      if shared.isEmpty then none else some (pseudo, shared)
  | _, _ => []

/-- The properties that two objects both touch for one pseudo-element. -/
def sharedPropertiesFor (g : Catalog) (a b : ObjectId) (pseudo : Option String) : List String :=
  ((sharedProperties g a b).lookup pseudo).getD []

end StyleBlocks
