import StyleBlocks.Session.Workspace
import StyleBlocks.Stylesheet.Rules

/-!
# Reading a block from its stylesheet

A block's record is filled from its stylesheet in a fixed order: the references and exports, a check
of the debug statements, the declarations of the root about the block itself, the objects of all
selectors with their declarations, and last a check that the block has what it implements.  Other
blocks are loaded by the step `load` that is handed in.
-/

namespace StyleBlocks

/-- The block that is read: its number, and its file's name in messages. -/
structure BlockReader where
  number : Nat
  filename : String
deriving DecidableEq, Repr

/-- Loads the block at a path that another block names. -/
abbrev LoadStep := String → LoadM Nat

namespace BlockReader

def place (r : BlockReader) (location : Location) : Place :=
  ⟨some r.filename, location⟩

def fail {α : Type} (r : BlockReader) (fault : BlockFault) (location : Location) : LoadM α :=
  throw (.block fault (some (r.place location)))

def load (r : BlockReader) (load : LoadStep) (path : String) (location : Location) : LoadM Nat :=
  tryCatch (load path) fun e => throw (e.locate (r.place location))

def reference (r : BlockReader) (name : String) (location : Location) : LoadM Nat := do
  match (← LoadM.block r.number).reference? name with
  | some target => return target
  | none => r.fail (.unknownBlock name) location

/-! ## References, exports, debug statements -/

def introduce (r : BlockReader) (name : String) (target : Nat) (location : Location) :
    LoadM Unit :=
  LoadM.updateBlock r.number (r.place location) (·.introduce name target)

/-- Makes a block known that another block exports. -/
def importExport (r : BlockReader) (origin : Nat) (path : String) (location : Location)
    (names : String × String) : LoadM Unit := do
  match (← LoadM.block origin).export? names.1 with
  | some target => r.introduce names.2 target location
  | none => r.fail (.noSuchImport names.1 path) location

/-- A reference: the block of a file, or some of the blocks it exports. -/
def readReference (r : BlockReader) (load : LoadStep) (h : AtHead) : LoadM Unit := do
  match Import.parse? h.params with
  | some ⟨names, some path⟩ =>
    let target ← r.load load path h.location
    match names with
    | .single name => r.introduce name target h.location
    | .several names => names.forM (r.importExport target path h.location)
  | _ => r.fail (.malformedReference h.params) h.location

/-- The block that an export names: one that the block `origin` exports, or one that is referred
to. -/
def exported (r : BlockReader) (origin : Option (Nat × String)) (name : String)
    (location : Location) : LoadM Nat := do
  match origin with
  | some (n, path) =>
    match (← LoadM.block n).export? name with
    | some target => return target
    | none => r.fail (.noSuchExport name path) location
  | none =>
    match (← LoadM.block r.number).reference? name with
    | some target => return target
    | none => r.fail (.exportOfUnknown name) location

def offer (r : BlockReader) (origin : Option (Nat × String)) (location : Location)
    (names : String × String) : LoadM Unit := do
  let target ← r.exported origin names.1 location
  LoadM.updateBlock r.number (r.place location) (·.offer names.2 target)

/-- An export of blocks that are referred to, or of those that the block of a file exports. -/
def readExport (r : BlockReader) (load : LoadStep) (h : AtHead) : LoadM Unit := do
  match Import.parse? h.params with
  | none => r.fail (.malformedExport h.params) h.location
  | some ⟨names, path⟩ =>
    let origin ← match path with
      | some path => do pure (some (← r.load load path h.location, path))
      | none => pure none
    let names := match names with
      | .single name => [(name, name)]
      | .several names => names
    names.forM (r.offer origin h.location)

def head? : Node → Option AtHead
  | .group h _ => some h
  | .statement h => some h
  | _ => none

def readAtRule (r : BlockReader) (load : LoadStep) (h : AtHead) : LoadM Unit :=
  if h.name = "block-reference" then r.readReference load h
  else if h.name = "export" then r.readExport load h
  else pure ()

def checkDebug (r : BlockReader) (h : AtHead) : LoadM Unit :=
  if h.name = "block-debug" then do
    match DebugRequest.parse h.params with
    | .error fault => r.fail fault h.location
    | .ok request =>
      if request.reference != "self" then discard (r.reference request.reference h.location)
  else pure ()

/-! ## Declarations of the root -/

def selectors (r : BlockReader) (rule : Rule) : LoadM (List Selector) :=
  match Selector.parseList rule.selector with
  | .ok selectors => return selectors
  | .error e => r.fail (.noSelector e) rule.location

def isRootSelector (s : Selector) : Bool :=
  s.context.isEmpty &&
    match ObjectPath.ofCompound s.key with
    | .ok (path, rest) => path == .root && rest.isEmpty
    | .error _ => false

def trimQuotes (s : String) : String :=
  let isQuote := fun c : Char => c == '"' || c == '\''
  String.ofList ((s.toList.dropWhile isQuote).reverse.dropWhile isQuote).reverse

def readName (r : BlockReader) (value : String) (location : Location) : LoadM Unit :=
  let name := trimQuotes value
  if isIdentifier name then LoadM.updateBlock r.number (r.place location) (·.rename name)
  else r.fail (.illegalName name) location

def readBase (r : BlockReader) (name : String) (location : Location) : LoadM Unit := do
  let base ← r.reference name location
  let catalog := (← get).catalog
  if (catalog.block r.number).base.isSome then r.fail .secondBase location
  else if base = r.number || catalog.isExtendedBy r.number base then
    r.fail (.cyclicBase name) location
  else LoadM.modifyBlock r.number fun b => { b with base := some (name, base) }

def readImplements (r : BlockReader) (value : String) (location : Location) : LoadM Unit :=
  (FileName.pieces (· == ',') value.toList).forM fun piece => do
    let target ← r.reference (String.ofList (trim piece)) location
    LoadM.modifyBlock r.number (·.promise target)

def readRootDeclaration (r : BlockReader) (isRoot : Bool) (d : Declaration) : LoadM Unit :=
  if isRoot then
    let value := String.ofList (trim d.value.toList)
    if d.property = "block-name" then r.readName value d.location
    else if d.property = "extends" then r.readBase value d.location
    else r.readImplements value d.location
  else r.fail (.outsideRoot d.property) d.location

def readRootDeclarations (r : BlockReader) (rule : Rule) : LoadM Unit := do
  let declarations := rule.declarations.filter fun d => rootOnlyProperties.contains d.property
  if !declarations.isEmpty then
    let selectors ← r.selectors rule
    declarations.forM (r.readRootDeclaration (selectors.all isRootSelector))

/-! ## Objects -/

def obtainObject (r : BlockReader) (path : ObjectPath) (location : Location) : LoadM ObjectId := do
  let b ← LoadM.block r.number
  let (owner, b) := match path.className with
    | some name => b.obtainClass name
    | none => (b.root, b)
  LoadM.modifyBlock r.number fun _ => b
  match path.state with
  | none => return owner
  | some state =>
    match b.obtainState owner state.group state.name with
    | .ok (id, b) =>
      LoadM.modifyBlock r.number fun _ => b
      return id
    | .error e => throw (e.locate (r.place location))

/-- An object of another block may be named in the context only, and only by a global state. -/
def checkForeign (r : BlockReader) (path : ObjectPath) (name : String) (isKey : Bool)
    (selector : Selector) (location : Location) : LoadM Unit := do
  if isKey then r.fail (.foreignKey selector.render) location
  discard (r.reference name location)
  if path.state.isNone then r.fail (.foreignWithoutState name selector.render) location
  let catalog := (← get).catalog
  match catalog.named? r.number path with
  | none => r.fail (.notFound path.render) location
  | some id =>
    if !(catalog.object? id).any StyleObject.isGlobal then r.fail (.notGlobal path.render) location

/-- One compound of a selector: the object it names, if it is one of this block. -/
def readCompound (r : BlockReader) (selector : Selector) (isKey : Bool) (location : Location)
    (compound : Compound) : LoadM (Option ObjectId) := do
  match ObjectPath.ofCompound compound with
  | .error fault => r.fail (.objectIn fault selector.render) location
  | .ok (path, rest) =>
    if !isKey && rest.any Simple.isPseudoElement then
      r.fail (.pseudoElementInContext selector.render) location
    match path.block with
    | some name =>
      r.checkForeign path name isKey selector location
      return none
    | none => return some (← r.obtainObject path location)

def readSelector (r : BlockReader) (location : Location) (selector : Selector) :
    LoadM (Option (ObjectId × Option String)) := do
  selector.context.forM fun (compound, _) =>
    discard (r.readCompound selector false location compound)
  let key ← r.readCompound selector true location selector.key
  return key.map (·, selector.key.pseudoName?)

/-- The declarations of a rule that its objects get: no others of the block language, and no
resolutions. -/
def concreteDeclarations (rule : Rule) : List Declaration :=
  rule.declarations.filter fun d => !languageProperties.contains d.property && !d.asksResolution

def readGlobal (r : BlockReader) (keys : List (ObjectId × Option String)) (d : Declaration) :
    LoadM Unit :=
  match String.ofList (trim d.value.toList) with
  | "true" => keys.forM fun (id, _) =>
      LoadM.updateBlock r.number (r.place d.location) (·.makeGlobal id)
  | "false" => pure ()
  | value => r.fail (.globalValue value) d.location

def readRule (r : BlockReader) (rule : Rule) : LoadM Unit := do
  let selectors ← r.selectors rule
  let found ← selectors.mapM (r.readSelector rule.location)
  let keys := (found.filterMap id).eraseDups
  let declarations := concreteDeclarations rule
  if !declarations.isEmpty then
    LoadM.modifyBlock r.number fun b =>
      keys.foldl (fun b (id, pseudo) =>
        b.contribute id pseudo ⟨rule.id, some r.filename, declarations⟩) b
  (rule.declarations.filter (·.property == "block-global")).forM (r.readGlobal keys)

/-! ## Implementations -/

/-- The objects that the blocks implemented by block `n` have and `n` has not, interface by
interface. -/
def missingImplementations (g : Catalog) (n : Nat) : List (List String × String) :=
  (g.block n).implements.filterMap fun i =>
    let absent := (g.block i).ids.filter fun id => (g.named? n (g.pathTo id)).isNone
    if absent.isEmpty then none else some (absent.map g.sourceOf, (g.block i).name)

/-- The block has to have what it implements; a tolerant session only keeps the error. -/
def checkImplementations (r : BlockReader) (faultTolerant : Bool) : LoadM Unit := do
  let missing := missingImplementations (← get).catalog r.number
  if !missing.isEmpty then
    let e := BlockError.implementation missing (some (r.place .start))
    if faultTolerant then LoadM.modifyBlock r.number (·.keepError e) else throw e

def read (r : BlockReader) (load : LoadStep) (faultTolerant : Bool) (sheet : Stylesheet) :
    LoadM Unit := do
  let heads := sheet.nodes.filterMap head?
  heads.forM (r.readAtRule load)
  heads.forM r.checkDebug
  sheet.rules.forM r.readRootDeclarations
  sheet.rules.forM r.readRule
  r.checkImplementations faultTolerant

end BlockReader

end StyleBlocks
