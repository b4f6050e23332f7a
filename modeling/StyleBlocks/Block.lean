import StyleBlocks.Block.Contribution
import StyleBlocks.BlockError
import StyleBlocks.FileName

/-!
# Blocks

A block holds the objects of one stylesheet: its root, its classes, and the states of either, in the
order in which they were made.  It knows other blocks by the names of its references, offers blocks
under the names of its exports, and may extend one block and implement several.

* `Block.obtainClass`, `Block.obtainState`: an object, made if it is not there.
-/

namespace StyleBlocks

/-- An object: the number of its block and its place among the block's objects. -/
structure ObjectId where
  block : Nat
  index : Nat
deriving DecidableEq, Repr

/-- What an object is.  A state belongs to the object `owner` of the same block; a global state may
be used in selectors of other blocks. -/
inductive ObjectKind where
  | root
  | named
  | state (owner : Nat) (group : Option String) (isGlobal : Bool)
deriving DecidableEq, Repr

/-- An object of a block, what the stylesheet says about it, and its states. -/
structure StyleObject where
  name : String
  kind : ObjectKind
  contributions : Contributions
  states : List Nat
deriving DecidableEq, Repr

namespace StyleObject

def new (name : String) (kind : ObjectKind) : StyleObject :=
  ⟨name, kind, .empty, []⟩

def isState (s : StyleObject) : Bool :=
  match s.kind with
  | .state .. => true
  | _ => false

def owner? (s : StyleObject) : Option Nat :=
  match s.kind with
  | .state owner .. => some owner
  | _ => none

def group? (s : StyleObject) : Option String :=
  match s.kind with
  | .state _ group _ => group
  | _ => none

def isGlobal (s : StyleObject) : Bool :=
  match s.kind with
  | .state _ _ isGlobal => isGlobal
  | _ => false

end StyleObject

/-- The name under which every block exports itself. -/
def selfExport : String := "default"

structure Block where
  number : Nat
  identifier : String
  name : String
  nameIsSet : Bool
  guid : String
  objects : List StyleObject
  references : SortedMap String Nat
  exports : SortedMap String Nat
  base : Option (String × Nat)
  implements : List Nat
  dependencies : SortedMap (List PathPart) String
  stylesheet : Option Stylesheet
  errors : List BlockError
deriving Repr

namespace Block

def new (number : Nat) (identifier name : String) : Block where
  number := number
  identifier := identifier
  name := name
  nameIsSet := false
  guid := ""
  objects := [.new ":scope" .root]
  references := .empty
  exports := SortedMap.empty.insert selfExport number
  base := none
  implements := []
  dependencies := .empty
  stylesheet := none
  errors := []

instance : Inhabited Block := ⟨new 0 "" ""⟩

/-- Two blocks are read from the same file. -/
def isSameAs (b c : Block) : Bool :=
  b.identifier == c.identifier

/-! ## Objects -/

def root (b : Block) : ObjectId :=
  ⟨b.number, 0⟩

def object? (b : Block) (id : ObjectId) : Option StyleObject :=
  if id.block = b.number then b.objects[id.index]? else none

def ids (b : Block) : List ObjectId :=
  (List.range b.objects.length).map (⟨b.number, ·⟩)

def append (b : Block) (s : StyleObject) : ObjectId × Block :=
  (⟨b.number, b.objects.length⟩, { b with objects := b.objects ++ [s] })

def modifyObject (b : Block) (index : Nat) (f : StyleObject → StyleObject) : Block :=
  { b with objects := b.objects.modify index f }

def class? (b : Block) (name : String) : Option ObjectId :=
  (b.objects.findIdx? fun s => s.kind == .named && s.name == name).map (⟨b.number, ·⟩)

def obtainClass (b : Block) (name : String) : ObjectId × Block :=
  match b.class? name with
  | some id => (id, b)
  | none => b.append (.new name .named)

def state? (b : Block) (owner : ObjectId) (group : Option String) (name : String) :
    Option ObjectId := do
  let s ← b.object? owner
  let index ← s.states.find? fun i =>
    b.objects[i]?.any fun state => state.name == name && state.group? == group
  return ⟨b.number, index⟩

/-- The state of an object with a given group and name, made if it is not there.  The owner has to
be the root or a class of this block. -/
def obtainState (b : Block) (owner : ObjectId) (group : Option String) (name : String) :
    Except BlockError (ObjectId × Block) :=
  match b.object? owner with
  | none => .error (.state (.foreignOwner b.name))
  | some s =>
    if s.isState then .error (.state (.stateOwnsState name))
    else
      match b.state? owner group name with
      | some id => .ok (id, b)
      | none =>
        let (id, b) := b.append (.new name (.state owner.index group false))
        .ok (id, b.modifyObject owner.index fun s => { s with states := s.states ++ [id.index] })

def find? (b : Block) (path : ObjectPath) : Option ObjectId := do
  let owner ← match path.className with
    | some name => b.class? name
    | none => some b.root
  match path.state with
  | some state => b.state? owner state.group state.name
  | none => some owner

/-- The object of the block that the key of a selector names. -/
def keyObject? (b : Block) (s : Selector) : Option ObjectId :=
  match ObjectPath.ofCompound s.key with
  | .ok (path, _) => if path.block.isSome then none else b.find? path
  | .error _ => none

def ownerPath (b : Block) (index : Nat) : ObjectPath :=
  match b.objects[index]? with
  | some s => if s.kind = .named then ⟨none, some s.name, none⟩ else .root
  | none => .root

/-- The path of an object, as its own block sees it. -/
def pathTo (b : Block) (index : Nat) : ObjectPath :=
  match b.objects[index]? with
  | some s =>
    match s.kind with
    | .state owner group _ => { b.ownerPath owner with state := some ⟨group, s.name⟩ }
    | _ => b.ownerPath index
  | none => .root

def makeGlobal (b : Block) (id : ObjectId) : Except BlockError Block :=
  match b.object? id with
  | some s =>
    match s.kind with
    | .state owner group _ =>
      .ok (b.modifyObject id.index fun s => { s with kind := .state owner group true })
    | _ => .error (.unplaced .globalWithoutState)
  | none => .error (.unplaced .globalWithoutState)

def contribute (b : Block) (id : ObjectId) (pseudo : Option String) (r : Contribution) : Block :=
  if id.block = b.number then
    b.modifyObject id.index fun s => { s with contributions := s.contributions.add pseudo r }
  else b

/-! ## Names and other blocks -/

/-- Gives the block a name of its own, once. -/
def rename (b : Block) (name : String) : Except BlockError Block :=
  if b.nameIsSet then .error (.state (.nameSetTwice b.name))
  else .ok { b with name := name, nameIsSet := true }

def reference? (b : Block) (name : String) : Option Nat :=
  b.references.find? name

def nameFor? (b : Block) (target : Nat) : Option String :=
  (b.references.entries.find? fun e => e.2 == target).map Prod.fst

/-- Makes a block known under a name that no other block has. -/
def introduce (b : Block) (name : String) (target : Nat) : Except BlockError Block :=
  if (b.reference? name).any (· != target) then .error (.unplaced (.referenceTaken name))
  else .ok { b with references := b.references.insert name target }

def export? (b : Block) (name : String) : Option Nat :=
  b.exports.find? name

def offer (b : Block) (name : String) (target : Nat) : Except BlockError Block :=
  if name = selfExport then .error (.unplaced .defaultExport)
  else if (b.export? name).isSome then .error (.unplaced (.exportTaken name))
  else .ok { b with exports := b.exports.insert name target }

def base? (b : Block) : Option Nat :=
  b.base.map Prod.snd

def promise (b : Block) (target : Nat) : Block :=
  if target ∈ b.implements then b else { b with implements := b.implements ++ [target] }

/-- Adds a file on which the block depends.  Two texts of one path are one file. -/
def dependOn (b : Block) (path : String) : Block :=
  let parts := FileName.components path
  if (b.dependencies.find? parts).isSome then b
  else { b with dependencies := b.dependencies.insert parts path }

def keepError (b : Block) (e : BlockError) : Block :=
  { b with errors := b.errors ++ [e] }

end Block

end StyleBlocks
