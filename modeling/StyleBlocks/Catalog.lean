import StyleBlocks.Block

/-!
# The blocks of a session

All blocks of a session, in the order in which they were begun, and the identifiers of those that
can be asked for.  A block that extends another one inherits the other's objects: an object
overrides the one with the same path in the nearest ancestor that has it.

* `Catalog.overridden?`: the object that an object overrides.
-/

namespace StyleBlocks

/-- Blocks by number, and the numbers of those that can be asked for, by identifier. -/
structure Catalog where
  blocks : List Block
  identifiers : List (String × Nat)
deriving Repr

namespace Catalog

def empty : Catalog := ⟨[], []⟩

def length (g : Catalog) : Nat :=
  g.blocks.length

def block (g : Catalog) (n : Nat) : Block :=
  g.blocks[n]?.getD default

def modifyBlock (g : Catalog) (n : Nat) (f : Block → Block) : Catalog :=
  { g with blocks := g.blocks.modify n f }

def byIdentifier? (g : Catalog) (identifier : String) : Option Nat :=
  g.identifiers.lookup identifier

/-- An identifier no longer leads to a block. -/
def retract (g : Catalog) (identifier : String) : Catalog :=
  { g with identifiers := g.identifiers.filter fun e => e.1 != identifier }

def startBlock (g : Catalog) (identifier name : String) : Nat × Catalog :=
  let n := g.blocks.length
  (n, ⟨g.blocks ++ [.new n identifier name], (identifier, n) :: (g.retract identifier).identifiers⟩)

def object? (g : Catalog) (id : ObjectId) : Option StyleObject :=
  (g.block id.block).objects[id.index]?

def pathTo (g : Catalog) (id : ObjectId) : ObjectPath :=
  (g.block id.block).pathTo id.index

def sourceOf (g : Catalog) (id : ObjectId) : String :=
  (g.pathTo id).render

/-! ## Inheritance -/

/-- Follows the blocks that are extended, after `chain`, from the block `next` on.  A block that is
`start` or comes a second time ends the chain. -/
def chainFrom (g : Catalog) (start : Nat) : Nat → List Nat → Option Nat → List Nat
  | 0, chain, _ => chain
  | _, chain, none => chain
  | fuel + 1, chain, some next =>
    if next = start || next ∈ chain then chain
    else chainFrom g start fuel (chain ++ [next]) (g.block next).base?

/-- The blocks that a block extends, nearest first.  There are no more than there are blocks. -/
def ancestors (g : Catalog) (n : Nat) : List Nat :=
  g.chainFrom n (g.blocks.length + 1) [] (g.block n).base?

def overridden? (g : Catalog) (id : ObjectId) : Option ObjectId :=
  (g.ancestors id.block).findSome? fun n => (g.block n).find? (g.pathTo id)

/-- Follows the objects that are overridden, after `objects`, from `next` on. -/
def lineageFrom (g : Catalog) : Nat → List ObjectId → Option ObjectId → List ObjectId
  | 0, objects, _ => objects
  | _, objects, none => objects
  | fuel + 1, objects, some next =>
    if next ∈ objects then objects else lineageFrom g fuel (objects ++ [next]) (g.overridden? next)

/-- An object and all that it inherits from, itself first. -/
def lineage (g : Catalog) (id : ObjectId) : List ObjectId :=
  g.lineageFrom (g.blocks.length + 1) [id] (g.overridden? id)

def isExtendedBy (g : Catalog) (ancestor n : Nat) : Bool :=
  (g.ancestors n).contains ancestor

def isInheritedBy (g : Catalog) (ancestor id : ObjectId) : Bool :=
  ((g.lineage id).drop 1).contains ancestor

/-! ## Looking up -/

/-- The object with a given path in a block or, if it has none, in its ancestors. -/
def find? (g : Catalog) (n : Nat) (path : ObjectPath) : Option ObjectId :=
  (n :: g.ancestors n).findSome? fun m => (g.block m).find? path

/-- The object that a path names in the eyes of the block `n`.  A block's name is looked for among
the references first, then it may be the block's own name or that of an ancestor. -/
def named? (g : Catalog) (n : Nat) (path : ObjectPath) : Option ObjectId :=
  match path.block with
  | none => g.find? n path
  | some name =>
    match (g.block n).reference? name with
    | some target => g.find? target path.toLocal
    | none =>
      ((n :: g.ancestors n).find? fun m => (g.block m).name == name).bind fun m =>
        g.find? m path.toLocal

def lookup (g : Catalog) (n : Nat) (reference : String) : Option ObjectId := do
  let path ← (ObjectPath.parse reference).toOption
  g.named? n path

/-- The object of a block itself that a reference without a block's name names. -/
def own? (g : Catalog) (n : Nat) (source : String) : Option ObjectId := do
  let path ← (ObjectPath.parse source).toOption
  if path.block.isSome then none else (g.block n).find? path

end Catalog

end StyleBlocks
