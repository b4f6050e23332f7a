import StyleBlocks.Proofs.Catalog.Renumbering
import StyleBlocks.Proofs.Compilation.Afresh

/-!
# Compiled stylesheets have no numbers of blocks in them

A block that stands in two catalogs under different numbers is compiled to the same stylesheet: with
every selector read afresh, each pass is the same in both catalogs.

Main result: `compileLoaded_renumber`.
-/

namespace StyleBlocks

namespace Job

/-- The second job is that of the same block under another number. -/
structure IsRenumbered (D : Nat → Prop) (ρ : Nat → Nat) (c c' : Job) : Prop where
  catalog : Catalog.Renumbered D ρ c.catalog c'.catalog
  mem : D c.block
  block : c'.block = ρ c.block
  filename : c'.filename = c.filename

variable {D : Nat → Prop} {ρ : Nat → Nat} {c c' : Job} {x : ObjectId} (h : IsRenumbered D ρ c c')

include h

theorem errorIn_eq (fault : BlockFault) (location : Location) :
    c'.errorIn fault location = c.errorIn fault location := by
  rw [errorIn, errorIn, h.filename]

theorem readSelectors_eq : c'.readSelectors = c.readSelectors := by
  funext head
  simp only [readSelectors, errorIn_eq h]

/-! ### Debug statements -/

theorem debugTarget_eq (head : AtHead) :
    c'.debugTarget head = (c.debugTarget head).map fun found => (ρ found.1, found.2) := by
  unfold debugTarget
  cases DebugRequest.parse head.params with
  | error fault => exact congrArg Except.error (errorIn_eq h fault head.location)
  | ok request =>
    dsimp only
    rw [h.block, h.catalog.reference?_eq h.mem]
    split
    · rfl
    · cases (c.catalog.block c.block).reference? request.reference with
      | some m => rfl
      | none => exact congrArg Except.error (errorIn_eq h _ head.location)

theorem of_debugTarget {head : AtHead} {m : Nat} {channel : Channel}
    (hm : c.debugTarget head = .ok (m, channel)) : D m := by
  unfold debugTarget at hm
  split at hm
  · cases hm
  split at hm
  · cases hm
    exact h.mem
  split at hm
  · rename_i hr
    cases hm
    exact h.catalog.of_reference? h.mem hr
  · cases hm

theorem runDebug_eq (printed : Printed) (head : AtHead) :
    c'.runDebug printed head = c.runDebug printed head := by
  rw [runDebug, runDebug, debugTarget_eq h]
  cases hm : c.debugTarget head with
  -- `rfl` would compare what the two jobs print, which is not reached
  | error e => dsimp only [Except.map, bind, Except.bind]
  | ok found =>
    have hlisting := h.catalog.listing_eq (of_debugTarget h hm)
    dsimp only [Except.map, bind, Except.bind]
    rw [hlisting]

theorem debugNodes_eq (printed : Printed) (nodes : List Node) :
    c'.debugNodes printed nodes = c.debugNodes printed nodes := by
  induction nodes generalizing printed with
  | nil => rfl
  | cons node nodes ih => simp only [debugNodes, runDebug_eq h, ih]

theorem debugStatements_eq : c'.debugStatements = c.debugStatements := by
  funext k
  simp only [debugStatements, debugNodes_eq h]

/-! ### Inherited conflicts -/

theorem nameOf_eq {m : Nat} (hm : D m) : c'.nameOf (ρ m) = c.nameOf m := by
  rw [nameOf, nameOf, h.block, h.catalog.nameFor?_eq h.mem hm, (h.catalog.block m hm).name]

theorem referenceTo_eq (hx : D x.block) : c'.referenceTo (x.renumber ρ) = c.referenceTo x := by
  rw [referenceTo, referenceTo, h.catalog.sourceOf_eq hx, ← nameOf_eq h hx]
  rfl

theorem keyObject?_eq (s : Selector) :
    c'.keyObject? s = (c.keyObject? s).map (ObjectId.renumber ρ) := by
  unfold keyObject? Block.keyObject?
  rw [h.block]
  cases ObjectPath.ofCompound s.key with
  | error _ => rfl
  | ok found =>
    dsimp only
    split
    · rfl
    · exact h.catalog.block_find?_eq h.mem found.1

theorem of_keyObject? {s : Selector} (hx : c.keyObject? s = some x) : D x.block := by
  unfold keyObject? Block.keyObject? at hx
  split at hx
  · split at hx
    · cases hx
    · exact h.catalog.of_block_find? h.mem hx
  · cases hx

theorem inheritedConflict?_eq (s : Selector) :
    c'.inheritedConflict? s = c.inheritedConflict? s := by
  unfold inheritedConflict?
  rw [keyObject?_eq h]
  cases hx : c.keyObject? s with
  | none => rfl
  | some x =>
    have hx := of_keyObject? h hx
    simp only [Option.map_some, Option.bind_eq_bind, Option.bind_some, h.catalog.overridden?_eq hx]
    cases hy : c.catalog.overridden? x with
    | none => rfl
    | some y =>
      have hy := h.catalog.of_overridden? hx hy
      simp only [Option.map_some, Option.bind_some, h.catalog.sharedPropertiesFor_eq hx hy,
        referenceTo_eq h hy]

theorem addingEdit_eq : c'.addingEdit = c.addingEdit := by
  funext rule
  simp only [addingEdit, readSelectors_eq h, injectionsFor, funext (inheritedConflict?_eq h)]

/-! ### Output selectors -/

theorem compilingEdit_eq : c'.compilingEdit = c.compilingEdit := by
  funext rule
  simp only [compilingEdit, readSelectors_eq h, h.block, funext (h.catalog.compileSelector_eq h.mem),
    errorIn_eq h]

/-! ### Resolving -/

theorem block_find?_bne (hx : D x.block) (path : ObjectPath) :
    ((c'.catalog.block (ρ x.block)).find? path != some (x.renumber ρ))
      = ((c.catalog.block x.block).find? path != some x) := by
  rw [h.catalog.block_find?_eq hx]
  cases hy : (c.catalog.block x.block).find? path with
  | none => rfl
  | some y =>
    have hblock : y.block = x.block :=
      (Block.block_of_find? hy).trans (h.catalog.orderly _ hx).number
    rw [Bool.eq_iff_iff, bne_iff_ne, bne_iff_ne, Option.map_some, ne_eq, ne_eq, Option.some.injEq,
      Option.some.injEq]
    refine not_congr ⟨fun heq => ?_, fun heq => heq ▸ rfl⟩
    obtain ⟨m', j⟩ := x
    cases hblock
    cases heq
    rfl

theorem rivalOf?_eq (hx : D x.block) (conditions : List AtHead) (rule : Rule)
    (values : List Declaration) (s : Selector) :
    c'.rivalOf? (x.renumber ρ) conditions rule values s
      = c.rivalOf? x conditions rule values s := by
  have hfind := block_find?_bne h hx
  have hid := (h.catalog.block x.block hx).identifier
  simp only [rivalOf?, ObjectId.renumber] at hfind ⊢
  simp only [hfind, hid, h.catalog.compileSelector_eq hx]

theorem readRivals_eq (hx : D x.block) (property : String) :
    c'.readRivals (x.renumber ρ) property = c.readRivals x property := by
  have hblock := h.catalog.block x.block hx
  have hrule : c'.readRivalsIn (x.renumber ρ) property = c.readRivalsIn x property := by
    funext r
    have hrival := funext (rivalOf?_eq h hx r.1 r.2 (valuesFor r.2 property))
    have htarget : c'.readTarget (ρ x.block) r.2 = c.readTarget x.block r.2 := by
      rw [readTarget, readTarget, hblock.identifier]
    rw [readRivalsIn, readRivalsIn, ← htarget, ← hrival]
    rfl
  rw [readRivals, readRivals, hrule, ← hblock.stylesheet]
  rfl

theorem settleLevels_eq (rule : Rule) (q : Request) (selectors : List Selector)
    (own : List Declaration) (override : Bool) (targets : List ObjectId)
    (ht : ∀ x ∈ targets, D x.block) (found : Clash) :
    Afresh.settleLevels c' rule q selectors own override found (targets.map (ObjectId.renumber ρ))
      = Afresh.settleLevels c rule q selectors own override found targets := by
  have hrival : c'.settleRival rule q selectors own override
      = c.settleRival rule q selectors own override := by
    funext found m
    simp only [settleRival, mergeRival, errorIn_eq h]
  induction targets generalizing found with
  | nil => rfl
  | cons x targets ih =>
    have ih := ih fun y hy => ht y (by simp [hy])
    simp only [List.map_cons, Afresh.settleLevels, readRivals_eq h (ht x (by simp)), hrival, ih]

theorem isOverride_eq (q : Request) (own : List (Nat × Declaration)) :
    c'.isOverride q own = c.isOverride q own := by
  simp only [isOverride, errorIn_eq h]

theorem resolutionTarget_eq (q : Request) :
    c'.resolutionTarget q = (c.resolutionTarget q).map (ObjectId.renumber ρ) := by
  unfold resolutionTarget
  rw [h.filename]
  cases ObjectPath.parse q.resolution.reference with
  | error fault => rfl
  | ok path =>
    dsimp only
    rw [h.block, h.catalog.named?_eq h.mem]
    cases hx : c.catalog.named? c.block path with
    | none => exact congrArg Except.error (errorIn_eq h _ _)
    | some x =>
      have hx := h.catalog.of_named? h.mem hx
      have hown : ρ x.block = ρ c.block ↔ x.block = c.block :=
        ⟨h.catalog.injective _ _ hx h.mem, congrArg ρ⟩
      simp only [Option.map_some, ObjectId.renumber, hown, h.catalog.isExtendedBy_eq h.mem hx,
        errorIn_eq h]
      split
      · rfl
      · split <;> rfl

theorem of_resolutionTarget {q : Request} (hx : c.resolutionTarget q = .ok x) : D x.block := by
  unfold resolutionTarget at hx
  split at hx
  · cases hx
  split at hx
  · cases hx
  rename_i hnamed
  split at hx
  · cases hx
  split at hx
  · cases hx
  · cases hx
    exact h.catalog.of_named? h.mem hnamed

theorem settleRequest_eq (rule : Rule) (selectors : List Selector) :
    Afresh.settleRequest c' rule selectors = Afresh.settleRequest c rule selectors := by
  funext q
  unfold Afresh.settleRequest
  dsimp only
  rw [isOverride_eq h, resolutionTarget_eq h]
  cases c.isOverride q (ownValues rule q.declaration.property) with
  | error e => rfl
  | ok override =>
    cases hx : c.resolutionTarget q with
    | error e => rfl
    | ok x =>
      obtain ⟨hlineage, hD⟩ := h.catalog.lineage_eq (of_resolutionTarget h hx)
      simp only [Except.map, hlineage, settleLevels_eq h _ _ _ _ _ _ hD, errorIn_eq h]

theorem settle_eq : Afresh.settle c' = Afresh.settle c := by
  have hrule : Afresh.settleRule c' = Afresh.settleRule c := by
    funext rule
    have hrequests : c'.requests rule = c.requests rule := by simp only [requests, errorIn_eq h]
    simp only [Afresh.settleRule, hrequests, readSelectors_eq h, settleRequest_eq h]
  unfold Afresh.settle
  rw [hrule]

theorem exportClasses_eq : c'.exportClasses = c.exportClasses := by
  unfold exportClasses
  rw [h.block, h.catalog.ofBlock_eq h.mem, ClassIndex.inBlock]
  simp only [List.map_map]
  rfl

theorem passes_eq (options : Options) : Afresh.passes c' options = Afresh.passes c options := by
  rw [Afresh.passes, Afresh.passes, debugStatements_eq h, addingEdit_eq h, compilingEdit_eq h,
    settle_eq h, exportClasses_eq h]

end Job

/-- **A block that stands in two catalogs is compiled to the same stylesheet, with the same errors and
the same output.** -/
theorem compileLoaded_renumber {D : Nat → Prop} {ρ : Nat → Nat} {g g' : Catalog} {n : Nat}
    (h : Catalog.Renumbered D ρ g g') (hn : D n) (options : Options) :
    compileLoaded g' options (ρ n) = compileLoaded g options n := by
  have hblock := h.block n hn
  unfold compileLoaded
  rw [hblock.stylesheet, hblock.name]
  cases (g.block n).stylesheet with
  | none => rfl
  | some sheet =>
    have hjob : Job.IsRenumbered D ρ (g.job n sheet) (g'.job (ρ n) sheet) :=
      ⟨h, hn, rfl, by rw [Catalog.job, Catalog.job, hblock.identifier]⟩
    have hafresh : compileAfresh g' options (ρ n) sheet = compileAfresh g options n sheet := by
      rw [compileAfresh, compileAfresh, Job.passes_eq hjob]
    have hsame : outcome (compile g' options (ρ n) sheet) = outcome (compile g options n sheet) := by
      rw [outcome_compile, outcome_compile, hafresh]
    dsimp only
    generalize compile g options n sheet = out at hsame ⊢
    generalize compile g' options (ρ n) sheet = out' at hsame ⊢
    obtain ⟨⟨_, _, _⟩, e⟩ := out
    obtain ⟨⟨_, _, _⟩, _⟩ := out'
    cases hsame
    cases e <;> rfl

end StyleBlocks
