import StyleBlocks.Clash
import StyleBlocks.Compilation
import StyleBlocks.Selector.Merge
import StyleBlocks.Statement
import StyleBlocks.Stylesheet.Rules

/-!
# Resolving conflicts

A resolution in a rule names an object of another block.  Wherever a rule for that object sets the
property to other values, a rule is put behind the resolving one: it selects the elements that
both rules select, and has the values of the other rule if the resolution stands behind the rule's
own values, and the rule's own values if it stands before them.  If the object has no conflicting
rule, the object that it overrides is asked.

* `Job.settleRequest`: the rules that one resolution asks for.
* `Job.settleNodes`, `Job.settle`: the pass that carries out all resolutions.
-/

namespace StyleBlocks

structure SettleState where
  table : SelectorTable
  nextRule : Nat
deriving DecidableEq, Repr

abbrev SettleM := ExceptT BlockError (StateM SettleState)

/-- A rule of another block for the object of a resolution: its selector with output classes, its
values for the property, and the at-rules around it, outermost first. -/
structure Rival where
  selector : Selector
  values : List Declaration
  conditions : List AtHead
deriving Repr

/-- A node inside at-rules, outermost first. -/
def wrapIn (conditions : List AtHead) (node : Node) : Node :=
  conditions.foldr (fun head inner => .group head [inner]) node

namespace Job

/-! ## The rules of the other block -/

def targetSelectors (c : Job) (n : Nat) (rule : Rule) : SettleM (List Selector) := do
  let s ← get
  let (selectors, table) := s.table.get n rule.toRuleHead
  set { s with table := table }
  match selectors with
  | .ok selectors => return selectors
  | .error e =>
    throw (.placed (.noSelector e) (some (c.catalog.block n).identifier) rule.location)

/-- A rule of the block of `target`, if its selector's key names `target`. -/
def rivalOf? (c : Job) (target : ObjectId) (conditions : List AtHead) (rule : Rule)
    (values : List Declaration) (s : Selector) : Except BlockError (Option Rival) :=
  let b := c.catalog.block target.block
  match ObjectPath.ofCompound s.key with
  | .error _ => .ok none
  | .ok (path, _) =>
    if path.block.isSome || b.find? path != some target then .ok none
    else
      match c.catalog.compileSelector target.block s with
      | .error fault => .error (.placed (.output fault) (some b.identifier) rule.location)
      | .ok selector =>
        .ok (some ⟨selector, values, conditions.map fun h => { h with location := .nowhere }⟩)

/-- The values of a rule for a property or one that overlaps it. -/
def valuesFor (rule : Rule) (property : String) : List Declaration :=
  rule.declarations.filter fun d => overlaps d.property property && !d.asksResolution

def rivalsOfRule (c : Job) (target : ObjectId) (property : String)
    (r : List AtHead × Rule) : SettleM (List Rival) := do
  let values := valuesFor r.2 property
  if values.isEmpty then return []
  let selectors ← c.targetSelectors target.block r.2
  let found ← selectors.mapM fun s => liftExcept (c.rivalOf? target r.1 r.2 values s)
  return found.filterMap id
where
  liftExcept {α : Type} : Except BlockError α → SettleM α
    | .ok a => pure a
    | .error e => throw e

/-- The rules of the block of `target`, at any depth, whose selector's key names `target`, and which
set the property or one that overlaps it. -/
def rivalsFor (c : Job) (target : ObjectId) (property : String) :
    SettleM (List Rival) := do
  match (c.catalog.block target.block).stylesheet with
  | none => return []
  | some sheet =>
    let found ← sheet.conditionalRules.mapM (c.rivalsOfRule target property)
    return found.flatten

/-! ## One resolution -/

/-- A resolution in a rule: its place in the rule's body, its declaration and what it asks for. -/
structure Request where
  index : Nat
  declaration : Declaration
  resolution : Resolution
deriving DecidableEq, Repr

/-- The rule's own values for the property of a resolution, each with its place in the body. -/
def ownValues (rule : Rule) (property : String) : List (Nat × Declaration) :=
  rule.body.zipIdx.filterMap fun (node, i) =>
    match node with
    | .declaration d => if d.property = property && !d.asksResolution then some (i, d) else none
    | _ => none

/-- Whether the resolution stands behind the rule's own values; it may not stand between them. -/
def isOverride (c : Job) (q : Request) (own : List (Nat × Declaration)) :
    Except BlockError Bool :=
  let before := own.any (·.1 < q.index)
  let behind := own.any (q.index ≤ ·.1)
  let d := q.declaration
  if before && behind then .error (c.errorIn (.resolveBetween d.property) d.location)
  else if !before && !behind then .error (c.errorIn (.resolveWithoutValue d.property) d.location)
  else .ok before

def resolutionTarget (c : Job) (q : Request) : Except BlockError ObjectId :=
  let location := q.declaration.location
  match ObjectPath.parse q.resolution.reference with
  | .error fault => .error (.path fault (some ⟨c.filename, location⟩))
  | .ok path =>
    match c.catalog.named? c.block path with
    | none => .error (c.errorIn (.notFound q.resolution.reference) location)
    | some id =>
      if id.block = c.block then .error (c.errorIn .resolveOwnBlock location)
      else if !q.resolution.inherited && c.catalog.isExtendedBy id.block c.block then
        .error (c.errorIn .resolveAncestor location)
      else .ok id

/-- The selectors for what both a rule and a match select, and how the values relate. -/
def mergeRival (c : Job) (q : Request) (selectors : List Selector) (own : List Declaration)
    (m : Rival) : Except BlockError (Clash × List String) :=
  let clash := clashOf own m.values
  let comparable := selectors.filter fun s => s.key.pseudoName? == m.selector.key.pseudoName?
  if comparable.isEmpty then .ok (.noConflict, [])
  else if clash != .conflict then .ok (clash, [])
  else do
    let merged ← comparable.mapM fun s =>
      (mergeSelectors s m.selector).mapError fun fault => c.errorIn fault q.declaration.location
    return (clash, (merged.flatten.map Selector.render).eraseDups)

/-- The rule for what both a rule and a match select. -/
def emitRule (rule : Rule) (q : Request) (texts : List String) (values : List Declaration)
    (conditions : List AtHead) : SettleM Node := do
  let s ← get
  set { s with nextRule := s.nextRule + 1 }
  let body := values.map fun d => .declaration { d with location := q.declaration.location }
  return wrapIn conditions (.rule ⟨s.nextRule, ",\n".intercalate texts, rule.location⟩ body)

def settleRival (c : Job) (rule : Rule) (q : Request) (selectors : List Selector)
    (own : List Declaration) (override : Bool) (found : Clash × List Node) (m : Rival) :
    SettleM (Clash × List Node) := do
  match c.mergeRival q selectors own m with
  | .error e => throw e
  | .ok (clash, texts) =>
    let level := found.1.join clash
    if texts.isEmpty then return (level, found.2)
    let node ← emitRule rule q texts (if override then m.values else own) m.conditions
    return (level, found.2 ++ [node])

def settleLevels (c : Job) (rule : Rule) (q : Request) (selectors : List Selector)
    (own : List Declaration) (override : Bool) : Clash → List ObjectId → SettleM (Clash × List Node)
  | found, [] => return (found, [])
  | found, target :: targets => do
    let hits ← c.rivalsFor target q.declaration.property
    let (level, nodes) ←
      hits.foldlM (c.settleRival rule q selectors own override) (.noConflict, [])
    let found := found.join level
    if level = .conflict then return (found, nodes)
    let (found, others) ← c.settleLevels rule q selectors own override found targets
    return (found, nodes ++ others)

def settleRequest (c : Job) (rule : Rule) (selectors : List Selector) (q : Request) :
    SettleM (List Node) := do
  let d := q.declaration
  let own := ownValues rule d.property
  match c.isOverride q own, c.resolutionTarget q with
  | .error e, _ => throw e
  | .ok _, .error e => throw e
  | .ok override, .ok target =>
    let (found, nodes) ← c.settleLevels rule q selectors (own.map Prod.snd) override .noConflict
      (c.catalog.lineage target)
    if found = .noConflict && !q.resolution.inherited then
      throw (c.errorIn (.resolveNothing d.property q.resolution.reference) d.location)
    return nodes

/-! ## All resolutions -/

def requests (c : Job) (rule : Rule) : Except BlockError (List Request) := do
  let found ← rule.body.zipIdx.mapM fun (node, i) =>
    match node with
    | .declaration d =>
      match Resolution.parse d.value with
      | .ok (some resolution) => .ok (some ⟨i, d, resolution⟩)
      | .ok none => .ok none
      | .error fault => .error (c.errorIn fault d.location)
    | _ => .ok none
  return found.filterMap id

def settleRule (c : Job) (rule : Rule) : SettleM (List Node) := do
  match c.requests rule with
  | .error e => throw e
  | .ok [] => return []
  | .ok requests =>
    let s ← get
    let (selectors, table) := c.selectors s.table rule.toRuleHead
    set { s with table := table }
    match selectors with
    | .error e => throw e
    | .ok selectors =>
      let nodes ← requests.mapM (c.settleRequest rule selectors)
      return nodes.flatten

def isConcrete : Node → Bool
  | .declaration d => !d.asksResolution
  | _ => true

mutual

/-- Carries out the resolutions in a node.  The new rules stand behind theirs, the last one first.
-/
def settleNode (c : Job) (s : SettleState) :
    Node → Walked (List Node) SettleState BlockError
  | .rule head body =>
    match (c.settleRule ⟨head, body⟩).run s with
    | (.error e, s) => ⟨[.rule head body], s, some e⟩
    | (.ok nodes, s) => ⟨.rule head (body.filter isConcrete) :: nodes.reverse, s, none⟩
  | .group head body =>
    if head.holdsFrames then ⟨[.group head body], s, none⟩
    else
      let inner := settleNodes c s body
      ⟨[.group head inner.result], inner.state, inner.error⟩
  | node => ⟨[node], s, none⟩

def settleNodes (c : Job) (s : SettleState) :
    List Node → Walked (List Node) SettleState BlockError
  | [] => ⟨[], s, none⟩
  | node :: nodes =>
    let first := settleNode c s node
    match first.error with
    | some e => ⟨first.result ++ nodes, first.state, some e⟩
    | none =>
      let others := settleNodes c first.state nodes
      ⟨first.result ++ others.result, others.state, others.error⟩

end

def settle (c : Job) : Pass := fun k =>
  let walked := c.settleNodes ⟨k.table, k.sheet.nextRule⟩ k.sheet.nodes
  ({ k with
    sheet := { k.sheet with nodes := walked.result, nextRule := walked.state.nextRule }
    table := walked.state.table }, walked.error)

end Job

end StyleBlocks
