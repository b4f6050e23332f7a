import StyleBlocks.Catalog

/-!
# Output classes

Each object has a class of its own in the compiled stylesheet: the block's name for the root, the
name of a class behind two underscores, a state behind two hyphens, with its group before it.

* `Catalog.className`: the class of an object.
* `Catalog.compileSelector`: a selector written with output classes.
-/

namespace StyleBlocks

def stateSuffix (group : Option String) (name : String) : String :=
  match group with
  | some group => "--" ++ group ++ "-" ++ name
  | none => "--" ++ name

namespace Block

def ownerClass (b : Block) (index : Nat) : String :=
  match (b.ownerPath index).className with
  | some name => b.name ++ "__" ++ name
  | none => b.name

def className (b : Block) (index : Nat) : String :=
  match b.objects[index]? with
  | some s =>
    match s.kind with
    | .state owner group _ => b.ownerClass owner ++ stateSuffix group s.name
    | _ => b.ownerClass index
  | none => b.name

/-- The name of a root or a class where only one block is meant. -/
def ownerExportName (b : Block) (index : Nat) : String :=
  ((b.ownerPath index).className).getD "root"

def exportName (b : Block) (index : Nat) : String :=
  match b.objects[index]? with
  | some s =>
    match s.kind with
    | .state owner group _ => b.ownerExportName owner ++ stateSuffix group s.name
    | _ => b.ownerExportName index
  | none => "root"

def grouped (b : Block) : List ObjectId :=
  (List.range b.objects.length).flatMap fun i =>
    match b.objects[i]? with
    | some s => if s.isState then [] else (i :: s.states).map (⟨b.number, ·⟩)
    | none => []

end Block

namespace Catalog

def className (g : Catalog) (id : ObjectId) : String :=
  (g.block id.block).className id.index

/-- The classes that an element with an object has to carry: its own and all inherited ones. -/
def classNames (g : Catalog) (id : ObjectId) : List String :=
  (g.lineage id).map g.className

/-- A compound with an output class in the place of the object it names. -/
def compileCompound (g : Catalog) (n : Nat) (compound : Compound) :
    Except OutputFault Compound := do
  let (path, rest) ← (ObjectPath.ofCompound compound).mapError .noPath
  match g.named? n path with
  | some id => return .className (g.className id) :: rest
  | none => throw (.notFound path.render (g.block n).name)

def compileSelector (g : Catalog) (n : Nat) (s : Selector) : Except OutputFault Selector := do
  let context ← s.context.mapM fun (compound, combinator) => do
    return (← g.compileCompound n compound, combinator)
  return ⟨context, ← g.compileCompound n s.key⟩

def listingLine (g : Catalog) (indent : String) (id : ObjectId) : String :=
  indent ++ g.sourceOf id ++ " => " ++ " ".intercalate (g.classNames id)

/-- A block's objects and the classes of each: the root at the margin, classes one space and states
one more space in. -/
def listing (g : Catalog) (n : Nat) : List String :=
  let b := g.block n
  let lines := (List.range b.objects.length).flatMap fun i =>
    match b.objects[i]? with
    | some s =>
      if s.isState then []
      else
        let indent := if s.kind = .root then "" else " "
        g.listingLine indent ⟨b.number, i⟩
          :: s.states.map fun j => g.listingLine (indent ++ " ") ⟨b.number, j⟩
    | none => []
  ("Source: " ++ b.identifier) :: lines

end Catalog

end StyleBlocks
