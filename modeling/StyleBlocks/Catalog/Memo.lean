import StyleBlocks.Catalog.Classes

/-!
# Inheritance that is already followed

A catalog together with a table of the objects whose inheritance was asked for.  Every change of the
catalog empties the table, so what is in it holds of the catalog as it is.

* `MemoCatalog.change`: changes the catalog.
-/

namespace StyleBlocks

structure MemoCatalog where
  catalog : Catalog
  resolved : List (ObjectId × List ObjectId)
deriving Repr

namespace MemoCatalog

def ofCatalog (catalog : Catalog) : MemoCatalog :=
  ⟨catalog, []⟩

def change {α : Type} (m : MemoCatalog) (f : Catalog → α × Catalog) : α × MemoCatalog :=
  let (a, catalog) := f m.catalog
  (a, ⟨catalog, []⟩)

def lineage (m : MemoCatalog) (id : ObjectId) : List ObjectId × MemoCatalog :=
  match m.resolved.lookup id with
  | some objects => (objects, m)
  | none =>
    let objects := m.catalog.lineage id
    (objects, { m with resolved := (id, objects) :: m.resolved })

def isInheritedBy (m : MemoCatalog) (ancestor id : ObjectId) : Bool × MemoCatalog :=
  let (objects, m) := m.lineage id
  ((objects.drop 1).contains ancestor, m)

def classNames (m : MemoCatalog) (id : ObjectId) : List String × MemoCatalog :=
  let (objects, m) := m.lineage id
  (objects.map m.catalog.className, m)

end MemoCatalog

end StyleBlocks
