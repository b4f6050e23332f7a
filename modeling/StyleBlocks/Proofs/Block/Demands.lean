import Mathlib.Data.List.Nodup
import StyleBlocks.Proofs.Block.Stored

/-!
# Demands for objects

Objects are made on demand: a class by its name, a state by its owner, group and name.  Whatever is
demanded in whatever order, the objects of a block stay in order, and each keeps its place and what
it is.

Main result: `Block.supplyAll_consistent`.
-/

namespace StyleBlocks

open List

/-- What may be demanded of a block: the class with a name, or the state of an object with a group
and a name. -/
inductive Demand where
  | named (name : String)
  | state (owner : ObjectId) (group : Option String) (name : String)
deriving DecidableEq, Repr

def Demand.IsMetBy (s : StyleObject) : Demand → Prop
  | .named name => s.kind = .named ∧ s.name = name
  | .state owner group name => s.kind.plain = .state owner.index group false ∧ s.name = name

namespace StoredBlock

def supply (b : StoredBlock) : Demand → Except BlockError ObjectId × StoredBlock
  | .named name => (.ok (b.ensureClass name).1, (b.ensureClass name).2)
  | .state owner group name => b.ensureState owner group name

def supplyAll (b : StoredBlock) (ds : List Demand) : StoredBlock :=
  ds.foldl (fun b d => (b.supply d).2) b

end StoredBlock

namespace Block

variable {b b' b'' : Block} {d : Demand} {id : ObjectId} {i j : Nat} {s : StyleObject}

/-- The object that a demand gives, made if it is not there, and the block after it.  A demand that
fails makes nothing. -/
def supply (b : Block) : Demand → Except BlockError ObjectId × Block
  | .named name => (.ok (b.obtainClass name).1, (b.obtainClass name).2)
  | .state owner group name =>
    match b.obtainState owner group name with
    | .ok (id, b') => (.ok id, b')
    | .error e => (.error e, b)

def supplyAll (b : Block) (ds : List Demand) : Block :=
  ds.foldl (fun b d => (b.supply d).2) b

def present? (b : Block) : Demand → Option ObjectId
  | .named name => b.class? name
  | .state owner group name => b.state? owner group name

/-- A class can always be had, a state only of an object of the block that is no state itself. -/
def CanHave (b : Block) : Demand → Prop
  | .named _ => True
  | .state owner _ _ => ∃ s, b.object? owner = some s ∧ s.isState = false

/-! ## One demand -/

/-- **What a demand can do**: it finds what is there, fails, makes a class, or makes a state. -/
theorem supply_cases (b : Block) (d : Demand) :
    (∃ id, b.present? d = some id ∧ b.CanHave d ∧ b.supply d = (.ok id, b)) ∨
      (∃ e, ¬b.CanHave d ∧ b.supply d = (.error e, b)) ∨
      (∃ name, d = .named name ∧ b.class? name = none ∧
        b.supply d = (.ok ⟨b.number, b.objects.length⟩, (b.append (.new name .named)).2)) ∨
      ∃ owner group name s, d = .state owner group name ∧ b.object? owner = some s ∧
        s.isState = false ∧ b.state? owner group name = none ∧
        b.supply d = (.ok ⟨b.number, b.objects.length⟩, b.withState owner.index group name) := by
  cases d with
  | named name =>
    cases hc : b.class? name with
    | some id => exact .inl ⟨id, hc, trivial, by simp only [supply, obtainClass, hc]⟩
    | none =>
      exact .inr (.inr (.inl ⟨name, rfl, hc, by simp only [supply, obtainClass, hc, append]⟩))
  | state owner group name =>
    cases hs : b.object? owner with
    | none =>
      refine .inr (.inl ⟨.state (.foreignOwner b.name), ?_, by simp only [supply, obtainState, hs]⟩)
      rintro ⟨s, hs', -⟩
      cases hs.symm.trans hs'
    | some s =>
      cases hstate : s.isState with
      | true =>
        refine .inr (.inl ⟨.state (.stateOwnsState name), ?_, ?_⟩)
        · rintro ⟨s', hs', hstate'⟩
          cases hs.symm.trans hs'
          cases hstate.symm.trans hstate'
        · simp only [supply, obtainState, hs, hstate, if_true]
      | false =>
        cases hfound : b.state? owner group name with
        | some id =>
          exact .inl ⟨id, hfound, ⟨s, hs, hstate⟩, by
            simp [supply, obtainState, hs, hstate, hfound]⟩
        | none =>
          simp [supply, obtainState, hs, hstate, hfound, withState, append]

theorem exists_supply_ok_iff (b : Block) (d : Demand) :
    (∃ id, (b.supply d).1 = .ok id) ↔ b.CanHave d := by
  obtain ⟨id, -, hcan, heq⟩ | ⟨e, hcan, heq⟩ | ⟨name, rfl, -, heq⟩ |
    ⟨owner, group, name, s, rfl, hs, hstate, -, heq⟩ := b.supply_cases d
  · simp [heq, hcan]
  · simp [heq, hcan]
  · simp [heq, CanHave]
  · rw [heq]
    exact ⟨fun _ => ⟨s, hs, hstate⟩, fun _ => ⟨_, rfl⟩⟩

theorem supply_of_error {e : BlockError} (h : (b.supply d).1 = .error e) : (b.supply d).2 = b := by
  obtain ⟨id, -, -, heq⟩ | ⟨e, -, heq⟩ | ⟨name, -, -, heq⟩ |
    ⟨owner, group, name, s, -, -, -, -, heq⟩ := b.supply_cases d <;> rw [heq] at h ⊢ <;> cases h

theorem supply_of_present? (hb : b.WellFormed) (h : b.present? d = some id) :
    b.supply d = (.ok id, b) := by
  cases d with
  | named name =>
    have hc : b.class? name = some id := h
    simp only [supply, obtainClass, hc]
  | state owner group name =>
    have hfound : b.state? owner group name = some id := h
    obtain ⟨s, hs, -, hf⟩ := state?_eq_some.1 hfound
    obtain ⟨-, hos⟩ := object?_eq_some.1 hs
    -- the owner has a state, so it is none itself
    obtain ⟨t, g, ht, hk⟩ := hb.states _ _ _ hos (mem_of_find?_eq_some hf)
    obtain ⟨o, ho, hstate, -⟩ := hb.listed ht hk
    obtain rfl : s = o := Option.some.inj (hos.symm.trans ho)
    simp [supply, obtainState, hs, hstate, hfound]

theorem present?_supply (hb : b.WellFormed) (h : (b.supply d).1 = .ok id) :
    (b.supply d).2.present? d = some id := by
  obtain ⟨id', hid, -, heq⟩ | ⟨e, -, heq⟩ | ⟨name, rfl, hc, heq⟩ |
    ⟨owner, group, name, s, rfl, hs, -, hnone, heq⟩ := b.supply_cases d <;>
    rw [heq] at h ⊢ <;> cases h
  · exact hid
  · exact b.class?_append hc
  · exact state?_withState hb hs hnone

theorem isMetBy_of_present? (hb : b.WellFormed) (h : b.present? d = some id) :
    ∃ s, b.object? id = some s ∧ d.IsMetBy s := by
  cases d with
  | named name =>
    obtain ⟨hbl, s, hs, hk, hn⟩ := class?_eq_some h
    exact ⟨s, object?_eq_some.2 ⟨hbl, hs⟩, hk, hn⟩
  | state owner group name =>
    obtain ⟨s, hs, hbl, hf⟩ := state?_eq_some.1 h
    obtain ⟨t, g, ht, hk⟩ := hb.states _ _ _ (object?_eq_some.1 hs).2 (mem_of_find?_eq_some hf)
    obtain ⟨isGlobal, hkt⟩ := ObjectKind.plain_eq_state.1 hk
    have hm : t.name = name ∧ g = group := by
      simpa [ht, StyleObject.group?, hkt] using find?_some hf
    exact ⟨t, object?_eq_some.2 ⟨hbl, ht⟩, hm.2 ▸ hk, hm.1⟩

theorem GrowsTo.present? (h : b.GrowsTo b') (hb : b.WellFormed) (hd : b.present? d = some id) :
    b'.present? d = some id := by
  cases d with
  | named name => exact h.class? hd
  | state owner group name => exact h.state? hb hd

/-! ## Demands of a stored block -/

theorem supply_stored (b : Block) (d : Demand) :
    b.stored.supply d = ((b.supply d).1, (b.supply d).2.stored) := by
  cases d with
  | named name =>
    rw [StoredBlock.supply, ensureClass_stored]
    rfl
  | state owner group name =>
    rw [StoredBlock.supply, ensureState_stored, supply]
    cases b.obtainState owner group name <;> rfl

theorem supplyAll_stored (b : Block) (ds : List Demand) :
    b.stored.supplyAll ds = (b.supplyAll ds).stored := by
  induction ds generalizing b with
  | nil => rfl
  | cons d ds ih =>
    rw [supplyAll, foldl_cons, ← supplyAll, ← ih, StoredBlock.supplyAll, foldl_cons, supply_stored]
    rfl

/-! ## What demands add -/

/-- The objects stay where they are and keep all that they have, and may get more states. -/
structure AddsTo (b b' : Block) : Prop where
  number : b'.number = b.number
  object : ∀ (i : Nat) (s : StyleObject), b.objects[i]? = some s →
    ∃ more, b'.objects[i]? = some { s with states := s.states ++ more }

namespace AddsTo

theorem refl (b : Block) : b.AddsTo b :=
  ⟨rfl, fun _ s hs => ⟨[], by rw [append_nil]; exact hs⟩⟩

theorem trans (h : b.AddsTo b') (h' : b'.AddsTo b'') : b.AddsTo b'' := by
  refine ⟨h'.number.trans h.number, fun i s hs => ?_⟩
  obtain ⟨more, hmore⟩ := h.object i s hs
  obtain ⟨more', hmore'⟩ := h'.object i _ hmore
  exact ⟨more ++ more', by rw [hmore', append_assoc]⟩

theorem growsTo (h : b.AddsTo b') : b.GrowsTo b' := by
  refine ⟨h.number, fun i s hs => ?_⟩
  obtain ⟨more, hmore⟩ := h.object i s hs
  exact ⟨_, hmore, rfl, rfl, prefix_append _ _⟩

theorem append (b : Block) (s : StyleObject) : b.AddsTo (b.append s).2 := by
  refine ⟨rfl, fun i t ht => ⟨[], ?_⟩⟩
  rw [Block.append, getElem?_append_left (List.getElem?_eq_some_iff.1 ht).1, append_nil]
  exact ht

theorem withState (b : Block) {owner : Nat} (ho : owner < b.objects.length) (group : Option String)
    (name : String) : b.AddsTo (b.withState owner group name) := by
  refine ⟨rfl, fun i s hs => ?_⟩
  rw [getElem?_withState b ho, if_neg (List.getElem?_eq_some_iff.1 hs).1.ne, hs, Option.map_some]
  split
  · exact ⟨[b.objects.length], rfl⟩
  · exact ⟨[], by rw [append_nil]⟩

end AddsTo

/-- The objects are in order, and no object lists a state twice. -/
structure Tidy (b : Block) : Prop extends WellFormed b where
  nodup : ∀ (i : Nat) (s : StyleObject), b.objects[i]? = some s → s.states.Nodup

theorem tidy_new (number : Nat) (identifier name : String) :
    (Block.new number identifier name).Tidy := by
  refine ⟨wellFormed_of_root rfl, fun i s hs => ?_⟩
  rw [mem_singleton.1 (mem_of_getElem? hs)]
  exact nodup_nil

namespace Tidy

theorem append_named (hb : b.Tidy) {name : String} (h : b.class? name = none) :
    (b.append (.new name .named)).2.Tidy := by
  have hwf := (wellFormed_obtainClass hb.toWellFormed name).1
  rw [obtainClass, h] at hwf
  refine ⟨hwf, fun i s hs => ?_⟩
  rw [Block.append, getElem?_append] at hs
  split at hs
  · exact hb.nodup i s hs
  · rw [mem_singleton.1 (mem_of_getElem? hs)]
    exact nodup_nil

/-- The states that are listed are there, so the new one is listed for the first time. -/
theorem withState (hb : b.Tidy) {owner : ObjectId} (hs : b.object? owner = some s)
    (hstate : s.isState = false) {group : Option String} {name : String}
    (hnone : b.state? owner group name = none) : (b.withState owner.index group name).Tidy := by
  have ho := (List.getElem?_eq_some_iff.1 (object?_eq_some.1 hs).2).1
  refine ⟨wellFormed_withState hb.toWellFormed hs hstate hnone, fun i t ht => ?_⟩
  rw [getElem?_withState b ho] at ht
  split at ht
  · cases ht
    exact nodup_nil
  obtain ⟨u, hu, rfl⟩ := Option.map_eq_some_iff.1 ht
  split
  · refine nodup_append.2 ⟨hb.nodup i u hu, nodup_singleton _, ?_⟩
    rintro j hj k hk rfl
    obtain ⟨v, -, hv, -⟩ := hb.states i u j hu hj
    exact absurd (mem_singleton.1 hk) (List.getElem?_eq_some_iff.1 hv).1.ne
  · exact hb.nodup i u hu

/-- **One demand keeps the objects in order** and only adds to them. -/
theorem supply (hb : b.Tidy) (d : Demand) : (b.supply d).2.Tidy ∧ b.AddsTo (b.supply d).2 := by
  obtain ⟨id, -, -, heq⟩ | ⟨e, -, heq⟩ | ⟨name, -, hc, heq⟩ |
    ⟨owner, group, name, s, -, hs, hstate, hnone, heq⟩ := b.supply_cases d <;> rw [heq]
  · exact ⟨hb, .refl b⟩
  · exact ⟨hb, .refl b⟩
  · exact ⟨hb.append_named hc, .append b _⟩
  · exact ⟨hb.withState hs hstate hnone,
      .withState b (List.getElem?_eq_some_iff.1 (object?_eq_some.1 hs).2).1 group name⟩

theorem supplyAll (hb : b.Tidy) (ds : List Demand) :
    (b.supplyAll ds).Tidy ∧ b.AddsTo (b.supplyAll ds) := by
  induction ds generalizing b with
  | nil => exact ⟨hb, .refl b⟩
  | cons d ds ih =>
    obtain ⟨hb', hadds⟩ := hb.supply d
    obtain ⟨hb'', hadds'⟩ := ih hb'
    exact ⟨hb'', hadds.trans hadds'⟩

end Tidy

/-! ## The record of the objects -/

/-- How the objects of a block fit together.  The ids count the objects, and the first object is the
root.  A state belongs to the root or a class, which lists it once while no other object does, and
nothing but states is listed.  The path of each object leads to it, so no two have the same path. -/
structure Consistent (b : Block) : Prop where
  ids : ∀ i, b.ids[i]? = b.objects[i]?.map fun _ : StyleObject => (⟨b.number, i⟩ : ObjectId)
  object : ∀ i, b.object? ⟨b.number, i⟩ = b.objects[i]?
  nonempty : 0 < b.objects.length
  root : ∀ (i : Nat) (s : StyleObject), b.objects[i]? = some s → (s.kind = .root ↔ i = 0)
  owner : ∀ (i : Nat) (s : StyleObject) (owner : Nat) (group : Option String) (isGlobal : Bool),
    b.objects[i]? = some s → s.kind = .state owner group isGlobal →
    ∃ o : StyleObject, b.objects[owner]? = some o ∧ (o.kind = .root ∨ o.kind = .named)
  listed : ∀ (i : Nat) (s : StyleObject) (owner : Nat) (group : Option String) (isGlobal : Bool),
    b.objects[i]? = some s → s.kind = .state owner group isGlobal →
    ∀ (j : Nat) (o : StyleObject), b.objects[j]? = some o →
      o.states.count i = if j = owner then 1 else 0
  lists : ∀ (j : Nat) (o : StyleObject) (i : Nat), b.objects[j]? = some o → i ∈ o.states →
    ∃ (s : StyleObject) (group : Option String) (isGlobal : Bool),
      b.objects[i]? = some s ∧ s.kind = .state j group isGlobal
  find : ∀ i < b.objects.length, b.find? (b.pathTo i) = some ⟨b.number, i⟩
  distinct : ∀ i < b.objects.length, ∀ j < b.objects.length, b.pathTo i = b.pathTo j → i = j

theorem WellFormed.eq_of_pathTo (hb : b.WellFormed) (hi : i < b.objects.length)
    (hj : j < b.objects.length) (h : b.pathTo i = b.pathTo j) : i = j := by
  have hfind := hb.find i hi
  rw [h, hb.find j hj] at hfind
  exact (congrArg ObjectId.index (Option.some.inj hfind)).symm

theorem WellFormed.kind_eq_root (hb : b.WellFormed) (hs : b.objects[i]? = some s) :
    s.kind = .root ↔ i = 0 := by
  obtain ⟨r, hr, hroot⟩ := hb.root
  constructor
  · intro hk
    refine hb.eq_of_pathTo (List.getElem?_eq_some_iff.1 hs).1 (List.getElem?_eq_some_iff.1 hr).1 ?_
    rw [pathTo_of_not_isState hs (by simp [StyleObject.isState, hk]),
      pathTo_of_not_isState hr (by simp [StyleObject.isState, hroot]),
      ownerPath_of_ne_named hs (by simp [hk]), ownerPath_of_ne_named hr (by simp [hroot])]
  · rintro rfl
    obtain rfl : s = r := Option.some.inj (hs.symm.trans hr)
    exact hroot

theorem Tidy.count_states (hb : b.Tidy) {owner : Nat} {group : Option String}
    (hs : b.objects[i]? = some s) (hk : s.kind.plain = .state owner group false) {o : StyleObject}
    (ho : b.objects[j]? = some o) : o.states.count i = if j = owner then 1 else 0 := by
  split
  · rename_i hj
    subst hj
    obtain ⟨u, hu, -, hmem⟩ := hb.listed hs hk
    obtain rfl : o = u := Option.some.inj (ho.symm.trans hu)
    exact count_eq_one_of_mem (hb.nodup j o ho) hmem
  rename_i hj
  refine count_eq_zero.2 fun hmem => hj ?_
  obtain ⟨t, g, ht, hkt⟩ := hb.states j o i ho hmem
  obtain rfl : s = t := Option.some.inj (hs.symm.trans ht)
  rw [hk] at hkt
  injection hkt with howner
  exact howner.symm

theorem Tidy.consistent (hb : b.Tidy) : b.Consistent where
  ids i := by
    by_cases hi : i < b.objects.length <;> simp [Block.ids, hi]
  object i := by rw [object?, if_pos rfl]
  nonempty := by
    obtain ⟨r, hr, -⟩ := hb.root
    exact (List.getElem?_eq_some_iff.1 hr).1
  root i s hs := hb.kind_eq_root hs
  owner i s owner group isGlobal hs hk := by
    obtain ⟨o, ho, hstate, -⟩ := hb.listed hs (ObjectKind.plain_eq_state.2 ⟨isGlobal, hk⟩)
    refine ⟨o, ho, ?_⟩
    cases hko : o.kind with
    | root => exact .inl rfl
    | named => exact .inr rfl
    | state => simp [StyleObject.isState, hko] at hstate
  listed i s owner group isGlobal hs hk j o ho :=
    hb.count_states hs (ObjectKind.plain_eq_state.2 ⟨isGlobal, hk⟩) ho
  lists j o i ho hmem := by
    obtain ⟨s, group, hs, hk⟩ := hb.states j o i ho hmem
    obtain ⟨isGlobal, hk⟩ := ObjectKind.plain_eq_state.1 hk
    exact ⟨s, group, isGlobal, hs, hk⟩
  find := hb.find
  distinct i hi j hj h := hb.eq_of_pathTo hi hj h

/-- **The objects of a block after any demands**, for owners of any kind.  They fit together.  A
demand gives an object exactly if it can, namely what was demanded, and one that fails leaves the
block as it is.  Once a demand has given an object it gives the same one after any further demands,
and changes nothing then.  An object that is there keeps its place, its path and all that it has.
The same demands of a stored block give the same objects and errors, and leave what stores the block
in either case; the stored objects have the ids of their places, and paths lead to them. -/
theorem supplyAll_consistent (n : Nat) (identifier name : String) (ds : List Demand) :
    let b := (Block.new n identifier name).supplyAll ds
    (b.number = n ∧ b.Consistent) ∧
      ((StoredBlock.new n name).supplyAll ds = b.stored ∧
        (∀ d, b.stored.supply d = ((b.supply d).1, (b.supply d).2.stored)) ∧
        (∀ (i : Nat) (s : StoredObject), b.stored.objects[i]? = some s → s.id = ⟨n, i⟩) ∧
        ∀ path, b.stored.find? path = b.find? path) ∧
      (∀ d, (∃ id, (b.supply d).1 = .ok id) ↔ b.CanHave d) ∧
      (∀ d e, (b.supply d).1 = .error e → (b.supply d).2 = b) ∧
      (∀ d id, (b.supply d).1 = .ok id →
        (∃ s, (b.supply d).2.object? id = some s ∧ d.IsMetBy s) ∧
        ∀ later, ((b.supply d).2.supplyAll later).supply d
          = (.ok id, (b.supply d).2.supplyAll later)) ∧
      ∀ id s, b.object? id = some s → ∀ later,
        (∃ more, (b.supplyAll later).object? id = some { s with states := s.states ++ more }) ∧
        (b.supplyAll later).pathTo id.index = b.pathTo id.index := by
  intro b
  obtain ⟨hb, hadds⟩ := (tidy_new n identifier name).supplyAll ds
  refine ⟨⟨hadds.number, hb.consistent⟩, ⟨?_, b.supply_stored, fun i s hs => ?_, b.find?_stored⟩,
    b.exists_supply_ok_iff, fun d e => supply_of_error, fun d id h => ⟨?_, ?_⟩, ?_⟩
  · rw [← stored_new n identifier, supplyAll_stored]
  · rw [id_stored hs, hadds.number]
    rfl
  · exact isMetBy_of_present? (hb.supply d).1.toWellFormed (present?_supply hb.toWellFormed h)
  · intro later
    obtain ⟨hb', -⟩ := hb.supply d
    obtain ⟨hb'', hadds'⟩ := hb'.supplyAll later
    exact supply_of_present? hb''.toWellFormed
      (hadds'.growsTo.present? hb'.toWellFormed (present?_supply hb.toWellFormed h))
  · intro id s hs later
    obtain ⟨-, hadds'⟩ := hb.supplyAll later
    obtain ⟨hbl, hos⟩ := object?_eq_some.1 hs
    obtain ⟨more, hmore⟩ := hadds'.object id.index s hos
    exact ⟨⟨more, object?_eq_some.2 ⟨hbl.trans hadds'.number.symm, hmore⟩⟩,
      hadds'.growsTo.pathTo hb.toWellFormed (List.getElem?_eq_some_iff.1 hos).1⟩

-- A state is made for no state and for no object of another block.
example : ((Block.new 0 "a.css" "a").supplyAll [.named "x", .state ⟨0, 1⟩ none "on",
    .state ⟨0, 2⟩ none "deep", .state ⟨7, 0⟩ none "on"]).objects.length = 3 := by decide

end Block

end StyleBlocks
