import StyleBlocks.Selector.Parser

/-!
# Paths of block objects

A path names one object of a block: the block's root or one of its classes, or a state of either,
and before it possibly the name under which the block is known.  Compounds of selectors and the
references in values are both read as paths.
-/

namespace StyleBlocks

/-- A state, alone or as the value of a group of states that exclude each other. -/
structure StateName where
  group : Option String
  name : String
deriving DecidableEq, Repr

/-- A block's object: the root unless a class is given, or a state of that. -/
structure ObjectPath where
  block : Option String
  className : Option String
  state : Option StateName
deriving DecidableEq, Repr

/-- Why a text or a compound is no path. -/
inductive PathFault where
  | notASelector (fault : Fault)
  | notSingle (reference : String)
  | leftover (simple reference : String)
  | misplacedBlock (name : String)
  | secondClass (first second : String)
  | secondState (compound : String)
  | stateOperator (attr : String)
  | otherAttribute (attr : String)
  | byId (name : String)
  | universal
  | rootAndClass (compound : String)
  | noObject (compound : String)
deriving DecidableEq, Repr

def PathFault.message : PathFault → String
  | notASelector fault => fault.message
  | notSingle reference => s!"`{reference}` must name a single block object"
  | leftover simple reference => s!"Unexpected `{simple}` in `{reference}`"
  | misplacedBlock name => s!"Unexpected block reference `{name}`"
  | secondClass first second =>
    s!"Distinct classes cannot be selected on the same element: .{first}.{second}"
  | secondState compound => s!"Only one state may be selected per element: {compound}"
  | stateOperator attr => s!"State selectors only support the `=` operator: {attr}"
  | otherAttribute attr => s!"Cannot select attributes other than states: {attr}"
  | byId name => s!"Cannot select elements by id: #{name}"
  | universal => "Cannot use the universal selector in a block"
  | rootAndClass compound => s!"Cannot combine the block root with a class: {compound}"
  | noObject compound => s!"`{compound}` does not select a block object"

def stateSpace : String := "state"

def StateName.render (s : StateName) : String :=
  match s.group with
  | some group => "[" ++ stateSpace ++ "|" ++ group ++ "=" ++ s.name ++ "]"
  | none => "[" ++ stateSpace ++ "|" ++ s.name ++ "]"

namespace ObjectPath

def root : ObjectPath := ⟨none, none, none⟩

def toLocal (p : ObjectPath) : ObjectPath :=
  { p with block := none }

/-- A path's text.  The root is written out only if nothing else is. -/
def render (p : ObjectPath) : String :=
  p.block.getD ""
    ++ (match p.className with
      | some name => "." ++ name
      | none => if p.block.isNone && p.state.isNone then ":scope" else "")
    ++ (p.state.map StateName.render).getD ""

/-- What is read of a compound: the path so far, whether the root is named, and the conditions that
belong to no path. -/
structure Reading where
  path : ObjectPath
  scope : Bool
  rest : List Simple
deriving DecidableEq, Repr

def stateOf (a : Attribute) : Except PathFault StateName :=
  match a.operator, a.value with
  | none, none => .ok ⟨none, a.name⟩
  | some .equals, some value => .ok ⟨some a.name, value⟩
  | _, _ => .error (.stateOperator a.render)

def Reading.step (compound : Compound) (r : Reading) : Simple → Except PathFault Reading
  | .tag name => .error (.misplacedBlock name)
  | .universal => .error .universal
  | .id name => .error (.byId name)
  | .className name =>
    if name = "root" then .ok { r with scope := true }
    else
      match r.path.className with
      | some first => .error (.secondClass first name)
      | none => .ok { r with path := { r.path with className := some name } }
  | .hasAttribute a =>
    if a.space = some stateSpace then
      if r.path.state.isSome then .error (.secondState compound.render)
      else (stateOf a).map fun state => { r with path := { r.path with state := some state } }
    else .error (.otherAttribute a.render)
  | .pseudoClass name argument =>
    if name = "scope" ∧ argument = none then .ok { r with scope := true }
    else .ok { r with rest := r.rest ++ [.pseudoClass name argument] }
  | .pseudoElement name argument =>
    .ok { r with rest := r.rest ++ [.pseudoElement name argument] }

/-- The root and a class exclude each other, and an object has to be named. -/
def Reading.finish (compound : Compound) (r : Reading) :
    Except PathFault (ObjectPath × List Simple) :=
  if r.scope && r.path.className.isSome then .error (.rootAndClass compound.render)
  else if !r.scope && r.path == root then .error (.noObject compound.render)
  else .ok (r.path, r.rest)

/-- The object that a compound names, and the conditions left over.  A tag in the first place is the
name of a block. -/
def ofCompound (compound : Compound) : Except PathFault (ObjectPath × List Simple) := do
  let (block, simples) := match compound with
    | .tag name :: simples => (some name, simples)
    | simples => (none, simples)
  let r ← simples.foldlM (Reading.step compound) ⟨⟨block, none, none⟩, false, []⟩
  r.finish compound

def parse (reference : String) : Except PathFault ObjectPath := do
  let selector ← (Selector.parse reference).mapError fun e => .notASelector e.fault
  if !selector.context.isEmpty then throw (.notSingle reference)
  let (path, rest) ← ofCompound selector.key
  match rest with
  | [] => return path
  | extra :: _ => throw (.leftover extra.render reference)

end ObjectPath

end StyleBlocks
