import Mathlib.Logic.Function.Basic
import StyleBlocks.Proofs.Block.Objects
import StyleBlocks.Proofs.Steps

/-!
# Blocks as they are stored

A stored object has its id and knows its owner and its states by theirs, and a stored block has a
table of its classes.  Making an object changes the stored block, and a call that fails leaves one
too.

* `Block.ensureClass_stored`, `Block.ensureState_stored`: **the calls do to a stored block what
  `Block.obtainClass` and `Block.obtainState` do to the block.**
-/

namespace StyleBlocks

open List

inductive StoredKind where
  | root
  | named
  | state (owner : ObjectId) (group : Option String) (isGlobal : Bool)
deriving DecidableEq, Repr

structure StoredObject where
  id : ObjectId
  name : String
  kind : StoredKind
  states : List ObjectId
deriving DecidableEq, Repr

namespace StoredObject

def isState (s : StoredObject) : Bool :=
  match s.kind with
  | .state .. => true
  | _ => false

def group? (s : StoredObject) : Option String :=
  match s.kind with
  | .state _ group _ => group
  | _ => none

end StoredObject

@[ext]
structure StoredBlock where
  number : Nat
  name : String
  objects : List StoredObject
  classes : String → Option ObjectId

namespace StoredBlock

def new (number : Nat) (name : String) : StoredBlock :=
  ⟨number, name, [⟨⟨number, 0⟩, ":scope", .root, []⟩], fun _ => none⟩

def object? (b : StoredBlock) (id : ObjectId) : Option StoredObject :=
  if id.block = b.number then b.objects[id.index]? else none

def modifyObject (b : StoredBlock) (id : ObjectId) (f : StoredObject → StoredObject) : StoredBlock :=
  if id.block = b.number then { b with objects := b.objects.modify id.index f } else b

def push (b : StoredBlock) (name : String) (kind : StoredKind) : ObjectId × StoredBlock :=
  let id : ObjectId := ⟨b.number, b.objects.length⟩
  (id, { b with objects := b.objects ++ [⟨id, name, kind, []⟩] })

def ensureClass (b : StoredBlock) (name : String) : ObjectId × StoredBlock :=
  match b.classes name with
  | some id => (id, b)
  | none =>
    let (id, b) := b.push name .named
    (id, { b with classes := Function.update b.classes name (some id) })

def state? (b : StoredBlock) (owner : ObjectId) (group : Option String) (name : String) :
    Option ObjectId := do
  let s ← b.object? owner
  s.states.find? fun id => (b.object? id).any fun state => state.name == name && state.group? == group

def ensureState (b : StoredBlock) (owner : ObjectId) (group : Option String) (name : String) :
    Except BlockError ObjectId × StoredBlock :=
  match (b.object? owner).map StoredObject.isState with
  | none => (.error (.state (.foreignOwner b.name)), b)
  | some true => (.error (.state (.stateOwnsState name)), b)
  | some false =>
    match b.state? owner group name with
    | some id => (.ok id, b)
    | none =>
      let (id, b) := b.push name (.state owner group false)
      (.ok id, b.modifyObject owner fun s => { s with states := s.states ++ [id] })

def find? (b : StoredBlock) (path : ObjectPath) : Option ObjectId := do
  let owner ← match path.className with
    | some name => b.classes name
    | none => some ⟨b.number, 0⟩
  match path.state with
  | some state => b.state? owner state.group state.name
  | none => some owner

end StoredBlock

def ObjectKind.stored (n : Nat) : ObjectKind → StoredKind
  | .root => .root
  | .named => .named
  | .state owner group isGlobal => .state ⟨n, owner⟩ group isGlobal

def StyleObject.stored (n i : Nat) (s : StyleObject) : StoredObject :=
  ⟨⟨n, i⟩, s.name, s.kind.stored n, s.states.map (⟨n, ·⟩)⟩

namespace Block

variable {b : Block} {name : String}

/-- The block that is stored: its objects with their ids, and its classes by name. -/
def stored (b : Block) : StoredBlock :=
  ⟨b.number, b.name, b.objects.mapIdx fun i s => s.stored b.number i, b.class?⟩

theorem stored_new (n : Nat) (identifier name : String) :
    (Block.new n identifier name).stored = .new n name := by
  refine StoredBlock.ext rfl rfl rfl (funext fun name => ?_)
  simp [stored, class?, Block.new, StyleObject.new, StoredBlock.new]

theorem id_stored {i : Nat} {s : StoredObject} (h : b.stored.objects[i]? = some s) :
    s.id = ⟨b.number, i⟩ := by
  rw [stored, getElem?_mapIdx] at h
  obtain ⟨t, -, rfl⟩ := Option.map_eq_some_iff.1 h
  rfl

theorem object?_stored (b : Block) (id : ObjectId) :
    b.stored.object? id = (b.object? id).map (·.stored b.number id.index) := by
  unfold StoredBlock.object? object?
  by_cases h : id.block = b.number <;> simp [stored, h]

theorem isState_stored (s : StyleObject) (n i : Nat) : (s.stored n i).isState = s.isState := by
  rcases s with ⟨_, _ | _ | _⟩ <;> rfl

theorem group?_stored (s : StyleObject) (n i : Nat) : (s.stored n i).group? = s.group? := by
  rcases s with ⟨_, _ | _ | _⟩ <;> rfl

theorem state?_stored (b : Block) (owner : ObjectId) (group : Option String) (name : String) :
    b.stored.state? owner group name = b.state? owner group name := by
  unfold StoredBlock.state? state?
  rw [object?_stored]
  cases b.object? owner with
  | none => rfl
  | some s =>
    have hfound : ∀ i, ((b.stored.object? ⟨b.number, i⟩).any fun state =>
        state.name == name && state.group? == group)
        = b.objects[i]?.any fun state => state.name == name && state.group? == group := by
      intro i
      rw [object?_stored, object?, if_pos rfl, Option.any_map]
      refine congrArg (Option.any · _) (funext fun state => ?_)
      simp only [group?_stored]
      rfl
    change (s.states.map fun i => (⟨b.number, i⟩ : ObjectId)).find? _ = Option.bind _ _
    rw [find?_map]
    simp only [Function.comp_def, hfound]
    rw [Option.map_eq_bind]
    rfl

theorem find?_stored (b : Block) (path : ObjectPath) : b.stored.find? path = b.find? path := by
  unfold StoredBlock.find? find?
  simp only [state?_stored]
  rfl

/-! ## Making objects -/

theorem push_stored (b : Block) (name : String) (kind : StoredKind) :
    b.stored.push name kind = (⟨b.number, b.objects.length⟩, { b.stored with
      objects := b.stored.objects ++ [⟨⟨b.number, b.objects.length⟩, name, kind, []⟩] }) := by
  rw [show b.objects.length = b.stored.objects.length from length_mapIdx.symm]
  rfl

theorem stored_append (b : Block) (s : StyleObject) :
    (b.append s).2.stored.objects = b.stored.objects ++ [s.stored b.number b.objects.length] :=
  mapIdx_concat

theorem stored_modifyObject (b : Block) (i : Nat) {f : StyleObject → StyleObject}
    {g : StoredObject → StoredObject} (h : ∀ s, (f s).stored b.number i = g (s.stored b.number i)) :
    (b.modifyObject i f).stored.objects = b.stored.objects.modify i g := by
  refine ext_getElem? fun j => ?_
  change (mapIdx (fun i s => StyleObject.stored b.number i s) _)[j]? = (modify (mapIdx _ _) i g)[j]?
  rw [getElem?_mapIdx, getElem?_modifyObject, getElem?_modify, getElem?_mapIdx]
  by_cases hj : i = j
  · subst hj
    cases b.objects[i]? <;> simp [h]
  · simp [hj]

theorem class?_append_named (h : b.class? name = none) :
    (b.append (.new name .named)).2.class?
      = Function.update b.class? name (some ⟨b.number, b.objects.length⟩) := by
  funext other
  by_cases hother : other = name
  · rw [hother, Function.update_self, b.class?_append h]
  · rw [Function.update_of_ne hother]
    simp [class?, append, findIdx?_append, StyleObject.new, Ne.symm hother]

theorem class?_withState (b : Block) (owner : Nat) (group : Option String) (name : String) :
    (b.withState owner group name).class? = b.class? := by
  funext other
  simp [class?, withState, modifyObject, append, findIdx?_modify, findIdx?_append, StyleObject.new]

theorem ensureClass_stored (b : Block) (name : String) :
    b.stored.ensureClass name = ((b.obtainClass name).1, (b.obtainClass name).2.stored) := by
  unfold StoredBlock.ensureClass obtainClass
  cases h : b.class? name with
  | some id => simp only [show b.stored.classes name = some id from h]
  | none =>
    simp only [show b.stored.classes name = none from h, push_stored]
    exact congrArg (Prod.mk _) (StoredBlock.ext rfl rfl (b.stored_append (.new name .named)).symm
      (class?_append_named h).symm)

theorem ensureState_stored (b : Block) (owner : ObjectId) (group : Option String) (name : String) :
    b.stored.ensureState owner group name = match b.obtainState owner group name with
      | .ok (id, b') => (.ok id, b'.stored)
      | .error e => (.error e, b.stored) := by
  unfold StoredBlock.ensureState obtainState
  rw [object?_stored, Option.map_map]
  cases hs : b.object? owner with
  | none => rfl
  | some s =>
    simp only [Option.map_some, Function.comp_apply, isState_stored, state?_stored]
    cases hstate : s.isState with
    | true => rfl
    | false =>
      cases hfound : b.state? owner group name with
      | some id => rfl
      | none =>
        simp only [push_stored]
        obtain ⟨n, i⟩ := owner
        obtain rfl : n = b.number := (object?_eq_some.1 hs).1
        refine congrArg (Prod.mk _) ((if_pos rfl).trans (StoredBlock.ext rfl rfl ?_
          (b.class?_withState i group name).symm))
        symm
        refine (stored_modifyObject _ i (g := fun s =>
          { s with states := s.states ++ [⟨b.number, b.objects.length⟩] }) fun s => ?_).trans ?_
        · simp [StyleObject.stored, append]
        · rw [stored_append]
          rfl

end Block

end StyleBlocks
