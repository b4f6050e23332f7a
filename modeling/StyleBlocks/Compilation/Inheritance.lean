import StyleBlocks.Clash
import StyleBlocks.Compilation
import StyleBlocks.Statement

/-!
# Inherited conflicts

An object that overrides one of an ancestor conflicts with it wherever both set the same
property.  For each such property of a rule a resolution is put at the rule's start, unless the
rule already has one.

* `Job.injectionsFor`: the resolutions that a rule needs.
* `Job.settleInherited`: the pass that puts them in.
-/

namespace StyleBlocks

/-- The resolutions found for a rule, and the properties that are settled, by pseudo-element. -/
structure Injections where
  settled : List (Option String × String) := []
  found : List Declaration := []
deriving DecidableEq, Repr

/-- The object that a selector's key overrides: the properties on which both conflict, the key's
pseudo-element, and the value that resolves the conflict. -/
structure InheritedConflict where
  properties : List String
  pseudo : Option String
  value : String
deriving DecidableEq, Repr

namespace Job

/-- How the block refers to another one. -/
def nameOf (c : Job) (n : Nat) : String :=
  ((c.catalog.block c.block).nameFor? n).getD (c.catalog.block n).name

def referenceTo (c : Job) (id : ObjectId) : String :=
  c.nameOf id.block ++ c.catalog.sourceOf id

def keyObject? (c : Job) (s : Selector) : Option ObjectId :=
  (c.catalog.block c.block).keyObject? s

def inheritedConflict? (c : Job) (s : Selector) : Option InheritedConflict := do
  let id ← c.keyObject? s
  let base ← c.catalog.overridden? id
  let pseudo := s.key.pseudoName?
  return ⟨sharedPropertiesFor c.catalog id base pseudo, pseudo,
    "resolve-inherited(\"" ++ c.referenceTo base ++ "\")"⟩

end Job

namespace Injections

/-- Settles one declaration.  `explicit` are the properties that the rule resolves itself. -/
def addDeclaration (explicit : List String) (conflict : InheritedConflict) (i : Injections)
    (d : Declaration) : Injections :=
  if d.asksResolution || !conflict.properties.any (overlaps · d.property)
      || explicit.any (overlaps · d.property) || (conflict.pseudo, d.property) ∈ i.settled then i
  else
    let settled := (conflict.pseudo, d.property) :: i.settled
    if i.found.any fun e => e.property == d.property && e.value == conflict.value then
      { i with settled := settled }
    else ⟨settled, i.found ++ [⟨d.property, conflict.value, false, d.location⟩]⟩

end Injections

namespace Job

def injectionsFor (c : Job) (rule : Rule) (selectors : List Selector) : List Declaration :=
  let explicit := (rule.declarations.filter Declaration.asksResolution).map (·.property)
  let injections := (selectors.filterMap c.inheritedConflict?).foldl
    (fun i conflict => rule.declarations.foldl (Injections.addDeclaration explicit conflict) i) {}
  injections.found

def addResolutions (c : Job) : Visit SelectorTable BlockError := fun rule table =>
  match c.selectors table rule.toRuleHead with
  | (.error e, table) => ⟨.keep rule.toRuleHead, table, some e⟩
  | (.ok selectors, table) =>
    ⟨{ RuleEdit.keep rule.toRuleHead with before := c.injectionsFor rule selectors }, table, none⟩

def settleInherited (c : Job) : Pass :=
  .ofVisit c.addResolutions

end Job

end StyleBlocks
