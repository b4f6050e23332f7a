import StyleBlocks.Catalog.Memo

/-!
# The table of inheritance is never out of date

A catalog may be changed at any time, and be asked for the inheritance of objects in between.

Main result: `MemoCatalog.answers_eq`.
-/

namespace StyleBlocks

/-- What may be done with a catalog: a block is begun, given up or changed in any way, or a question
about an object is asked. -/
inductive CatalogCall where
  | start (identifier name : String)
  | retract (identifier : String)
  | edit (n : Nat) (f : Block → Block)
  | lineage (id : ObjectId)
  | isInheritedBy (ancestor id : ObjectId)
  | classNames (id : ObjectId)

inductive CatalogAnswer where
  | done
  | number (n : Nat)
  | objects (ids : List ObjectId)
  | truth (b : Bool)
  | classes (names : List String)

namespace Catalog

/-- A call without a table: every question is answered from the blocks. -/
def answer (g : Catalog) : CatalogCall → CatalogAnswer × Catalog
  | .start identifier name => (.number (g.startBlock identifier name).1, (g.startBlock identifier name).2)
  | .retract identifier => (.done, g.retract identifier)
  | .edit n f => (.done, g.modifyBlock n f)
  | .lineage id => (.objects (g.lineage id), g)
  | .isInheritedBy ancestor id => (.truth (g.isInheritedBy ancestor id), g)
  | .classNames id => (.classes (g.classNames id), g)

def answers (g : Catalog) : List CatalogCall → List CatalogAnswer × Catalog
  | [] => ([], g)
  | call :: calls =>
    let (answer, g) := g.answer call
    let (answers, g) := g.answers calls
    (answer :: answers, g)

end Catalog

namespace MemoCatalog

def answer (m : MemoCatalog) : CatalogCall → CatalogAnswer × MemoCatalog
  | .start identifier name => (m.change (·.startBlock identifier name)).map .number id
  | .retract identifier => m.change fun g => (.done, g.retract identifier)
  | .edit n f => m.change fun g => (.done, g.modifyBlock n f)
  | .lineage id => (m.lineage id).map .objects fun m => m
  | .isInheritedBy ancestor id => (m.isInheritedBy ancestor id).map .truth fun m => m
  | .classNames id => (m.classNames id).map .classes fun m => m

def answers (m : MemoCatalog) : List CatalogCall → List CatalogAnswer × MemoCatalog
  | [] => ([], m)
  | call :: calls =>
    let (answer, m) := m.answer call
    let (answers, m) := m.answers calls
    (answer :: answers, m)

variable {m : MemoCatalog}

/-- What is in the table holds of the catalog as it is. -/
def Fresh (m : MemoCatalog) : Prop :=
  ∀ e ∈ m.resolved, e.2 = m.catalog.lineage e.1

theorem fresh_ofCatalog (g : Catalog) : (ofCatalog g).Fresh := by
  intro e he
  cases he

theorem Fresh.lineage (h : m.Fresh) (id : ObjectId) : (m.lineage id).1 = m.catalog.lineage id ∧
    (m.lineage id).2.catalog = m.catalog ∧ (m.lineage id).2.Fresh := by
  unfold MemoCatalog.lineage
  split
  · rename_i objects hfound
    obtain ⟨l₁, l₂, hl, -⟩ := List.lookup_eq_some_iff.1 hfound
    exact ⟨h (id, objects) (by simp [hl]), rfl, h⟩
  · refine ⟨rfl, rfl, fun e he => ?_⟩
    rcases List.mem_cons.1 he with rfl | he
    · rfl
    · exact h e he

/-- **One call**: the same answer, the same catalog, and a table that holds of it. -/
theorem Fresh.answer (h : m.Fresh) (call : CatalogCall) :
    (m.answer call).1 = (m.catalog.answer call).1 ∧
      (m.answer call).2.catalog = (m.catalog.answer call).2 ∧ (m.answer call).2.Fresh := by
  cases call with
  | start | retract | edit => exact ⟨rfl, rfl, fresh_ofCatalog _⟩
  | lineage id =>
    obtain ⟨hanswer, hcatalog, hfresh⟩ := h.lineage id
    exact ⟨congrArg CatalogAnswer.objects hanswer, hcatalog, hfresh⟩
  | isInheritedBy ancestor id =>
    obtain ⟨hanswer, hcatalog, hfresh⟩ := h.lineage id
    exact ⟨congrArg (fun l : List ObjectId => CatalogAnswer.truth ((l.drop 1).contains ancestor))
      hanswer, hcatalog, hfresh⟩
  | classNames id =>
    obtain ⟨hanswer, hcatalog, hfresh⟩ := h.lineage id
    refine ⟨congrArg CatalogAnswer.classes ?_, hcatalog, hfresh⟩
    exact congr (congrArg (fun g : Catalog => List.map g.className) hcatalog) hanswer

theorem Fresh.answers (h : m.Fresh) (calls : List CatalogCall) :
    (m.answers calls).1 = (m.catalog.answers calls).1 ∧
      (m.answers calls).2.catalog = (m.catalog.answers calls).2 := by
  induction calls generalizing m with
  | nil => exact ⟨rfl, rfl⟩
  | cons call calls ih =>
    obtain ⟨hanswer, hcatalog, hfresh⟩ := h.answer call
    obtain ⟨hanswers, hrest⟩ := ih hfresh
    rw [hcatalog] at hanswers hrest
    exact ⟨congr (congrArg List.cons hanswer) hanswers, hrest⟩

/-- **The table is never out of date.**  Whatever blocks are begun, given up and changed, and whatever
is asked in between, every answer is the one that is found without a table in the catalog as it is
then. -/
theorem answers_eq (g : Catalog) (calls : List CatalogCall) :
    ((ofCatalog g).answers calls).1 = (g.answers calls).1 ∧
      ((ofCatalog g).answers calls).2.catalog = (g.answers calls).2 :=
  (fresh_ofCatalog g).answers calls

end MemoCatalog

end StyleBlocks
