import Mathlib.Data.List.Forall2
import StyleBlocks.Catalog.Classes
import StyleBlocks.Proofs.Block.Objects

/-!
# Blocks with the same objects

Where two blocks have the same objects, what is found in one of them is found in the same place of the
other, and what is made in both is made in the same place.  Their numbers are the only difference.

* `Block.find?_of_objects_eq`: **a path names the object in the same place.**
-/

namespace StyleBlocks

open List

variable {c c' : Block} {i n n' : Nat} {keys keys' : List (ObjectId × Option String)}
  {path : ObjectPath} {x x' : ObjectId}

namespace Block

variable {b b' : Block}

/-! ## Looking for objects -/

theorem block_of_owner? (h : b.owner? path = some x) : x.block = b.number := by
  unfold owner? at h
  split at h
  · exact (class?_eq_some h).1
  · cases h
    rfl

theorem block_of_find? (h : b.find? path = some x) : x.block = b.number := by
  obtain ⟨owner, ho, h⟩ := find?_eq_some.1 h
  split at h
  · obtain ⟨-, -, hx, -⟩ := state?_eq_some.1 h
    exact hx
  · rw [← h]
    exact block_of_owner? ho

section

variable (h : b'.objects = b.objects)

include h

theorem ownerPath_of_objects_eq (i : Nat) : b'.ownerPath i = b.ownerPath i := by
  rw [ownerPath, ownerPath, h]

theorem pathTo_of_objects_eq (i : Nat) : b'.pathTo i = b.pathTo i := by
  simp only [pathTo, ownerPath_of_objects_eq h, h]

theorem className_of_objects_eq (hn : b'.name = b.name) (i : Nat) :
    b'.className i = b.className i := by
  simp only [className, ownerClass, ownerPath_of_objects_eq h, h, hn]

theorem exportName_of_objects_eq (i : Nat) : b'.exportName i = b.exportName i := by
  simp only [exportName, ownerExportName, ownerPath_of_objects_eq h, h]

theorem owner?_of_objects_eq (path : ObjectPath) :
    b'.owner? path = (b.owner? path).map fun x => ⟨b'.number, x.index⟩ := by
  unfold owner?
  cases path.className with
  | none => rfl
  | some name => simp [class?, h, Function.comp_def]

theorem state?_of_objects_eq (i : Nat) (group : Option String) (name : String) :
    b'.state? ⟨b'.number, i⟩ group name
      = (b.state? ⟨b.number, i⟩ group name).map fun x => ⟨b'.number, x.index⟩ := by
  simp only [state?, object?, h, if_true]
  cases b.objects[i]? with
  | none => rfl
  | some s =>
    simp only [Option.bind_eq_bind, Option.bind_some]
    cases s.states.find? _ <;> rfl

theorem find?_of_objects_eq (path : ObjectPath) :
    b'.find? path = (b.find? path).map fun x => ⟨b'.number, x.index⟩ := by
  rw [find?_eq_bind, find?_eq_bind, owner?_of_objects_eq h]
  cases hx : b.owner? path with
  | none => rfl
  | some x =>
    obtain ⟨m, i⟩ := x
    obtain rfl : m = b.number := block_of_owner? hx
    cases path.state with
    | none => rfl
    | some state => exact state?_of_objects_eq h i state.group state.name

theorem grouped_of_objects_eq : b'.grouped = b.grouped.map fun x => ⟨b'.number, x.index⟩ := by
  unfold grouped
  rw [h, map_flatMap]
  refine flatMap_congr fun i _ => ?_
  cases b.objects[i]? with
  | none => rfl
  | some s =>
    dsimp only
    split <;> simp [Function.comp_def]

end

theorem block_of_mem_grouped (h : x ∈ b.grouped) : x.block = b.number := by
  obtain ⟨i, -, hx⟩ := mem_flatMap.1 h
  cases hs : b.objects[i]? with
  | none => simp [hs] at hx
  | some s =>
    rw [hs] at hx
    dsimp only at hx
    split at hx
    · cases hx
    · obtain ⟨j, -, rfl⟩ := mem_map.1 hx
      rfl

end Block

/-! ## Making objects -/

/-- Two ids of the same place, one in the block `n` and one in the block `n'`. -/
def ObjectId.SamePlace (n n' : Nat) (x x' : ObjectId) : Prop :=
  x.block = n ∧ x' = ⟨n', x.index⟩

/-- Two keys of selectors in the same place. -/
def SameKey (n n' : Nat) (e e' : ObjectId × Option String) : Prop :=
  e.1.SamePlace n n' e'.1 ∧ e'.2 = e.2

theorem SameKey.eq_iff {e e' d d' : ObjectId × Option String} (he : SameKey n n' e e')
    (hd : SameKey n n' d d') : d' = e' ↔ d = e := by
  obtain ⟨⟨_, i⟩, q⟩ := e
  obtain ⟨⟨_, j⟩, p⟩ := d
  obtain ⟨x', q'⟩ := e'
  obtain ⟨y', p'⟩ := d'
  simp only [SameKey, ObjectId.SamePlace] at he hd
  obtain ⟨⟨rfl, rfl⟩, rfl⟩ := he
  obtain ⟨⟨rfl, rfl⟩, rfl⟩ := hd
  simp

theorem forall₂_eraseDups (h : Forall₂ (SameKey n n') keys keys') :
    Forall₂ (SameKey n n') keys.eraseDups keys'.eraseDups := by
  induction hlen : keys.length using Nat.strong_induction_on generalizing keys keys' with
  | _ len ih =>
    cases h with
    | nil => exact .nil
    | @cons e e' keys keys' he h =>
      rw [eraseDups_cons, eraseDups_cons]
      refine .cons he (ih _ ?_ (rel_filter (fun d d' hd => ?_) h) rfl)
      · have := length_filter_le (fun b => !b == e) keys
        simp only [length_cons] at hlen
        omega
      · simp [he.eq_iff hd]

namespace Block

variable {b b' : Block}

theorem obtainOwner_of_objects_eq (h : b'.objects = b.objects) (path : ObjectPath) :
    (b.obtainOwner path).1.SamePlace b.number b'.number (b'.obtainOwner path).1 ∧
      (b'.obtainOwner path).2.objects = (b.obtainOwner path).2.objects := by
  unfold obtainOwner
  cases path.className with
  | none => exact ⟨⟨rfl, rfl⟩, h⟩
  | some name =>
    have hclass : b'.class? name = (b.class? name).map fun x => ⟨b'.number, x.index⟩ := by
      simp [class?, h, Function.comp_def]
    dsimp only
    unfold obtainClass
    rw [hclass]
    cases hx : b.class? name with
    | none =>
      refine ⟨⟨rfl, ?_⟩, ?_⟩
      · exact congrArg (fun l : List StyleObject => ObjectId.mk b'.number l.length) h
      · exact congrArg (· ++ [.new name .named]) h
    | some x => exact ⟨⟨(class?_eq_some hx).1, rfl⟩, h⟩

theorem number_obtainOwner (b : Block) (path : ObjectPath) :
    (b.obtainOwner path).2.number = b.number := by
  unfold obtainOwner obtainClass
  split
  · split <;> rfl
  · rfl

theorem obtainState_of_objects_eq (h : b'.objects = b.objects) {group : Option String}
    {name : String} (hx : b.obtainState ⟨b.number, i⟩ group name = .ok (x, c))
    (hx' : b'.obtainState ⟨b'.number, i⟩ group name = .ok (x', c')) :
    x.SamePlace b.number b'.number x' ∧ c'.objects = c.objects := by
  have hstate := state?_of_objects_eq h i group name
  rcases obtainState_ok hx with ⟨rfl, hfound⟩ | ⟨rfl, rfl, hnone, -⟩
  · rw [hfound] at hstate
    rcases obtainState_ok hx' with ⟨rfl, hfound'⟩ | ⟨-, -, hnone', -⟩
    · obtain ⟨-, -, hblock, -⟩ := state?_eq_some.1 hfound
      exact ⟨⟨hblock, Option.some.inj (hfound'.symm.trans hstate)⟩, h⟩
    · cases hnone'.symm.trans hstate
  rw [hnone] at hstate
  rcases obtainState_ok hx' with ⟨-, hfound'⟩ | ⟨rfl, rfl, -, -⟩
  · cases hfound'.symm.trans hstate
  · refine ⟨⟨rfl, by rw [h]⟩, ?_⟩
    simp [withState, append, modifyObject, h]

theorem obtainPath_of_objects_eq (h : b'.objects = b.objects) (hx : (b.obtainPath path).1 = .ok x)
    (hx' : (b'.obtainPath path).1 = .ok x') :
    x.SamePlace b.number b'.number x' ∧
      (b'.obtainPath path).2.objects = (b.obtainPath path).2.objects := by
  obtain ⟨⟨hblock, howner⟩, hobjects⟩ := obtainOwner_of_objects_eq h path
  have hn := b.number_obtainOwner path
  have hn' := b'.number_obtainOwner path
  unfold obtainPath at hx hx' ⊢
  cases hs : path.state with
  | none =>
    simp only [hs, Except.ok.injEq] at hx hx' ⊢
    rw [← hx, ← hx']
    exact ⟨⟨hblock, howner⟩, hobjects⟩
  | some state =>
    simp only [hs] at hx hx' ⊢
    have howner₁ : (b.obtainOwner path).1
        = ⟨(b.obtainOwner path).2.number, (b.obtainOwner path).1.index⟩ := by
      rw [hn, ← hblock]
    rw [howner₁] at hx ⊢
    rw [howner, ← hn'] at hx' ⊢
    rcases hmade : (b.obtainOwner path).2.obtainState _ state.group state.name with e | ⟨y, c⟩
    · simp [hmade] at hx
    rcases hmade' : (b'.obtainOwner path).2.obtainState
      ⟨(b'.obtainOwner path).2.number, (b.obtainOwner path).1.index⟩ state.group state.name
      with e | ⟨y', c'⟩
    · simp [hmade'] at hx'
    simp only [hmade, hmade', Except.ok.injEq] at hx hx' ⊢
    rw [← hx, ← hx', ← hn]
    exact obtainState_of_objects_eq hobjects hmade hmade'

theorem contribute_foldl_of_objects_eq
    (hkeys : Forall₂ (SameKey b.number b'.number) keys keys') (h : b'.objects = b.objects)
    (c : Contribution) :
    (keys'.foldl (fun b e => b.contribute e.1 e.2 c) b').objects
      = (keys.foldl (fun b e => b.contribute e.1 e.2 c) b).objects := by
  have hnumber : ∀ (b : Block) (e : ObjectId × Option String),
      (b.contribute e.1 e.2 c).number = b.number := by
    intro b e
    unfold contribute
    split <;> rfl
  -- the blocks change from key to key, and their numbers stay
  suffices H : ∀ {n n' keys keys'}, Forall₂ (SameKey n n') keys keys' → ∀ {b b' : Block},
      b.number = n → b'.number = n' → b'.objects = b.objects →
      (keys'.foldl (fun b e => b.contribute e.1 e.2 c) b').objects
        = (keys.foldl (fun b e => b.contribute e.1 e.2 c) b).objects from H hkeys rfl rfl h
  intro n n' keys keys' hkeys
  induction hkeys with
  | nil => exact fun _ _ h => h
  | @cons e e' keys keys' he _ ih =>
    intro b b' hn hn' h
    refine ih ((hnumber b e).trans hn) ((hnumber b' e').trans hn') ?_
    obtain ⟨⟨hblock, hplace⟩, hpseudo⟩ := he
    simp [contribute, modifyObject, hblock, hplace, hpseudo, hn, hn', h]

theorem makeGlobal_of_objects_eq (h : b'.objects = b.objects)
    (hc : b.makeGlobal ⟨b.number, i⟩ = .ok c) (hc' : b'.makeGlobal ⟨b'.number, i⟩ = .ok c') :
    c'.objects = c.objects := by
  obtain ⟨s, owner, group, isGlobal, hs, hkind, rfl⟩ := exists_of_makeGlobal hc
  obtain ⟨s', owner', group', isGlobal', hs', hkind', rfl⟩ := exists_of_makeGlobal hc'
  have hs' := (object?_eq_some.1 hs').2
  rw [h] at hs'
  obtain rfl : s = s' := Option.some.inj ((object?_eq_some.1 hs).2.symm.trans hs')
  cases hkind.symm.trans hkind'
  exact congrArg (fun l : List StyleObject => l.modify i _) h

end Block

end StyleBlocks
