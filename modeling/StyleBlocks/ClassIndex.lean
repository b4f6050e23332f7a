import StyleBlocks.Catalog.Classes
import StyleBlocks.Json

/-!
# Class indexes

The objects of a block with the names and the output classes that tools need for them.
-/

namespace StyleBlocks

/-- An object, the text of its path, its name inside the block, and its classes. -/
structure IndexEntry where
  object : ObjectId
  source : String
  exportName : String
  classes : List String
deriving DecidableEq, Repr

structure ClassIndex where
  block : String
  identifier : String
  entries : List IndexEntry
deriving DecidableEq, Repr

namespace ClassIndex

def entryOf (g : Catalog) (id : ObjectId) : IndexEntry :=
  ⟨id, g.sourceOf id, (g.block id.block).exportName id.index, g.classNames id⟩

def ofBlock (g : Catalog) (n : Nat) : ClassIndex :=
  let b := g.block n
  ⟨b.name, b.identifier, b.grouped.map (entryOf g)⟩

def classesOf? (m : ClassIndex) (source : String) : Option (List String) :=
  (m.entries.find? (·.source == source)).map (·.classes)

def member (key value : String) : String :=
  Json.writeText key ++ ": " ++ value

def entryJson (depth : Nat) (e : IndexEntry) : String :=
  Json.writeItems "\x7b" "\x7d" depth
    [member "source" (Json.writeText e.source),
     member "localName" (Json.writeText e.exportName),
     member "classes" (Json.writeItems "[" "]" (depth + 1) (e.classes.map Json.writeText))]

def render (m : ClassIndex) : String :=
  Json.writeItems "\x7b" "\x7d" 0
    [member "block" (Json.writeText m.block),
     member "identifier" (Json.writeText m.identifier),
     member "entries" (Json.writeItems "[" "]" 1 (m.entries.map (entryJson 2)))]

end ClassIndex

end StyleBlocks
