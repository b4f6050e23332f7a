import Mathlib.Data.List.Find
import StyleBlocks.Block

/-!
# The objects of a block

The objects of a block are found by their paths, and reading a stylesheet only adds to them.

Main result: `Block.pathTo_of_find?`.
-/

namespace StyleBlocks

open List

variable {group : Option String} {i : Nat} {id : ObjectId} {k : ObjectKind} {name : String}
  {path : ObjectPath} {s : StyleObject}

/-- What an object is, apart from being global. -/
def ObjectKind.plain : ObjectKind → ObjectKind
  | .state owner group _ => .state owner group false
  | kind => kind

namespace ObjectKind

theorem plain_eq_root : k.plain = .root ↔ k = .root := by
  cases k <;> simp [plain]

theorem plain_eq_named : k.plain = .named ↔ k = .named := by
  cases k <;> simp [plain]

theorem plain_eq_state {owner : Nat} :
    k.plain = .state owner group false ↔ ∃ isGlobal, k = .state owner group isGlobal := by
  cases k <;> simp [plain]

end ObjectKind

namespace Block

variable {b b' : Block} {f : StyleObject → StyleObject}

/-- The root comes first, an object lists its states, and the path of every object leads to it. -/
structure WellFormed (b : Block) : Prop where
  root : ∃ s, b.objects[0]? = some s ∧ s.kind = .root
  states : ∀ (i : Nat) (s : StyleObject) (j : Nat), b.objects[i]? = some s → j ∈ s.states →
    ∃ (t : StyleObject) (group : Option String),
      b.objects[j]? = some t ∧ t.kind.plain = .state i group false
  find : ∀ i < b.objects.length, b.find? (b.pathTo i) = some ⟨b.number, i⟩

/-! ## Paths -/

theorem ownerPath_of_named (hs : b.objects[i]? = some s) (hk : s.kind = .named) :
    b.ownerPath i = ⟨none, some s.name, none⟩ := by
  simp [ownerPath, hs, hk]

theorem ownerPath_of_ne_named (hs : b.objects[i]? = some s) (hk : s.kind ≠ .named) :
    b.ownerPath i = .root := by
  simp [ownerPath, hs, hk]

theorem pathTo_of_not_isState (hs : b.objects[i]? = some s) (hk : s.isState = false) :
    b.pathTo i = b.ownerPath i := by
  unfold pathTo
  cases h : s.kind <;> simp_all [StyleObject.isState]

theorem pathTo_of_state {owner : Nat} (hs : b.objects[i]? = some s)
    (hk : s.kind.plain = .state owner group false) :
    b.pathTo i = { b.ownerPath owner with state := some ⟨group, s.name⟩ } := by
  obtain ⟨isGlobal, hk⟩ := ObjectKind.plain_eq_state.1 hk
  simp [pathTo, hs, hk]

theorem block_ownerPath (i : Nat) : (b.ownerPath i).block = none := by
  unfold ownerPath
  split
  · split <;> rfl
  · rfl

theorem state_ownerPath (i : Nat) : (b.ownerPath i).state = none := by
  unfold ownerPath
  split
  · split <;> rfl
  · rfl

theorem block_pathTo (i : Nat) : (b.pathTo i).block = none := by
  unfold pathTo
  split
  · split <;> exact block_ownerPath _
  · rfl

/-! ## Looking up -/

theorem class?_eq_some (h : b.class? name = some id) :
    id.block = b.number ∧ ∃ s, b.objects[id.index]? = some s ∧ s.kind = .named ∧ s.name = name := by
  obtain ⟨i, hi, rfl⟩ := Option.map_eq_some_iff.1 h
  obtain ⟨hlt, hp, -⟩ := findIdx?_eq_some_iff_getElem.1 hi
  refine ⟨rfl, b.objects[i], getElem?_eq_getElem hlt, ?_⟩
  simpa using hp

theorem state?_eq_some {owner : ObjectId} :
    b.state? owner group name = some id ↔ ∃ s, b.object? owner = some s ∧ id.block = b.number ∧
      (s.states.find? fun i => b.objects[i]?.any fun t => t.name == name && t.group? == group)
        = some id.index := by
  unfold state?
  cases hs : b.object? owner with
  | none => simp
  | some s =>
    obtain ⟨n, i⟩ := id
    simp only [Option.bind_eq_bind, Option.bind_some, Option.bind_eq_some_iff, Option.pure_def,
      Option.some.injEq, ObjectId.mk.injEq]
    constructor
    · rintro ⟨j, hj, rfl, rfl⟩
      exact ⟨s, rfl, rfl, hj⟩
    · rintro ⟨_, rfl, rfl, hj⟩
      exact ⟨i, hj, rfl, rfl⟩

theorem object?_eq_some :
    b.object? id = some s ↔ id.block = b.number ∧ b.objects[id.index]? = some s := by
  unfold object?
  split <;> simp_all

theorem exists_of_makeGlobal (h : b.makeGlobal id = .ok b') : ∃ s owner group isGlobal,
    b.object? id = some s ∧ s.kind = .state owner group isGlobal ∧
      b' = b.modifyObject id.index fun s => { s with kind := .state owner group true } := by
  unfold makeGlobal at h
  split at h
  · rename_i s hs
    split at h
    · rename_i owner group isGlobal hkind
      exact ⟨s, owner, group, isGlobal, hs, hkind, (Except.ok.inj h).symm⟩
    · cases h
  · cases h

/-- The object whose states a path may name. -/
def owner? (b : Block) (path : ObjectPath) : Option ObjectId :=
  match path.className with
  | some name => b.class? name
  | none => some b.root

theorem find?_eq_bind (b : Block) (path : ObjectPath) :
    b.find? path = (b.owner? path).bind fun owner => match path.state with
      | some state => b.state? owner state.group state.name
      | none => some owner := by
  unfold find? owner?
  cases path.className <;> rfl

theorem find?_eq_some :
    b.find? path = some id ↔ ∃ owner, b.owner? path = some owner ∧
      match path.state with
      | some state => b.state? owner state.group state.name = some id
      | none => owner = id := by
  rw [find?_eq_bind, Option.bind_eq_some_iff]
  cases path.state <;> simp

theorem ownerPath_of_owner? (hb : b.WellFormed) {owner : ObjectId} (h : b.owner? path = some owner) :
    owner.block = b.number ∧
      ∃ s, b.objects[owner.index]? = some s ∧ s.isState = false ∧
        b.ownerPath owner.index = ⟨none, path.className, none⟩ := by
  unfold owner? at h
  split at h
  · rename_i name hn
    obtain ⟨hbl, s, hs, hk, rfl⟩ := class?_eq_some h
    exact ⟨hbl, s, hs, by simp [StyleObject.isState, hk], by rw [ownerPath_of_named hs hk, hn]⟩
  rename_i hn
  cases h
  obtain ⟨s, hs, hk⟩ := hb.root
  refine ⟨rfl, s, hs, by simp [StyleObject.isState, hk], ?_⟩
  rw [root, ownerPath_of_ne_named hs (by simp [hk]), hn]
  rfl

/-- **What a path leads to has that path.** -/
theorem pathTo_of_find? (hb : b.WellFormed) (h : b.find? path = some id) :
    id.block = b.number ∧ id.index < b.objects.length ∧ b.pathTo id.index = path.toLocal := by
  obtain ⟨owner, ho, h⟩ := find?_eq_some.1 h
  obtain ⟨hbl, s, hs, hk, hp⟩ := ownerPath_of_owner? hb ho
  cases hst : path.state with
  | none =>
    rw [hst] at h
    cases h
    refine ⟨hbl, (List.getElem?_eq_some_iff.1 hs).1, ?_⟩
    rw [pathTo_of_not_isState hs hk, hp, ObjectPath.toLocal, hst]
  | some state =>
    rw [hst] at h
    obtain ⟨s', hs', hbl', hf⟩ := state?_eq_some.1 h
    obtain rfl : s' = s := Option.some.inj ((object?_eq_some.1 hs').2.symm.trans hs)
    obtain ⟨t, group, ht, hkt⟩ := hb.states _ _ _ hs (mem_of_find?_eq_some hf)
    have hm := find?_some hf
    simp only [ht, Option.any_some, Bool.and_eq_true, beq_iff_eq] at hm
    refine ⟨hbl', (List.getElem?_eq_some_iff.1 ht).1, ?_⟩
    rw [pathTo_of_state ht hkt, hp, ObjectPath.toLocal, hst, hm.1]
    obtain ⟨isGlobal, hkt⟩ := ObjectKind.plain_eq_state.1 hkt
    have hg : group = state.group := by simpa [StyleObject.group?, hkt] using hm.2
    rw [hg]

theorem WellFormed.listed (hb : b.WellFormed) {owner : Nat} (hs : b.objects[i]? = some s)
    (hk : s.kind.plain = .state owner group false) :
    ∃ o, b.objects[owner]? = some o ∧ o.isState = false ∧ i ∈ o.states := by
  obtain ⟨o, ho, h⟩ := find?_eq_some.1 (hb.find i (List.getElem?_eq_some_iff.1 hs).1)
  rw [pathTo_of_state hs hk] at h
  obtain ⟨t, ht, -, hf⟩ := state?_eq_some.1 h
  obtain ⟨-, u, hu, hku, -⟩ := ownerPath_of_owner? hb ho
  obtain rfl : t = u := Option.some.inj ((object?_eq_some.1 ht).2.symm.trans hu)
  have hmem := mem_of_find?_eq_some hf
  -- the owner that the path leads to lists the state, so it is the owner that the state names
  obtain ⟨v, group', hv, hkv⟩ := hb.states _ _ _ hu hmem
  obtain rfl : s = v := Option.some.inj (hs.symm.trans hv)
  obtain ⟨rfl, -⟩ : owner = o.index ∧ group = group' := by simpa [hk] using hkv
  exact ⟨t, hu, hku, hmem⟩

theorem WellFormed.owner (hb : b.WellFormed) {owner : Nat} {group : Option String}
    (hs : b.objects[i]? = some s) (hk : s.kind.plain = .state owner group false) :
    ∃ o, b.objects[owner]? = some o ∧ o.isState = false := by
  obtain ⟨o, ho, hstate, -⟩ := hb.listed hs hk
  exact ⟨o, ho, hstate⟩

theorem wellFormed_of_root (h : b.objects = [.new ":scope" .root]) : b.WellFormed := by
  have h0 : b.objects[0]? = some (.new ":scope" .root) := by rw [h]; rfl
  refine ⟨⟨_, h0, rfl⟩, ?_, ?_⟩
  · intro i s j hs hj
    rw [h] at hs
    rw [mem_singleton.1 (mem_of_getElem? hs)] at hj
    simp [StyleObject.new] at hj
  intro i hi
  obtain rfl : i = 0 := by rw [h] at hi; simpa using hi
  rw [pathTo_of_not_isState h0 rfl, ownerPath_of_ne_named h0 (by simp [StyleObject.new])]
  exact find?_eq_some.2 ⟨b.root, rfl, rfl⟩

/-! ## Growth -/

/-- The objects stay what they are and where they are, and may get more states. -/
structure GrowsTo (b b' : Block) : Prop where
  number : b'.number = b.number
  object : ∀ (i : Nat) (s : StyleObject), b.objects[i]? = some s →
    ∃ s' : StyleObject, b'.objects[i]? = some s' ∧ s'.name = s.name ∧
      s'.kind.plain = s.kind.plain ∧ s.states <+: s'.states

namespace GrowsTo

theorem of_objects_eq (hn : b'.number = b.number) (ho : b'.objects = b.objects) : b.GrowsTo b' :=
  ⟨hn, fun _ s hs => ⟨s, ho ▸ hs, rfl, rfl, prefix_rfl⟩⟩

theorem refl (b : Block) : b.GrowsTo b :=
  .of_objects_eq rfl rfl

theorem trans {b₁ b₂ b₃ : Block} (h : b₁.GrowsTo b₂) (h' : b₂.GrowsTo b₃) : b₁.GrowsTo b₃ := by
  refine ⟨h'.number.trans h.number, fun i s hs => ?_⟩
  obtain ⟨s₂, hs₂, hn₂, hk₂, hst₂⟩ := h.object i s hs
  obtain ⟨s₃, hs₃, hn₃, hk₃, hst₃⟩ := h'.object i s₂ hs₂
  exact ⟨s₃, hs₃, hn₃.trans hn₂, hk₃.trans hk₂, hst₂.trans hst₃⟩

variable (h : b.GrowsTo b')

include h

theorem ownerPath (hi : i < b.objects.length) : b'.ownerPath i = b.ownerPath i := by
  have hs := getElem?_eq_getElem hi
  obtain ⟨s', hs', hn, hk, -⟩ := h.object i _ hs
  by_cases hnamed : b.objects[i].kind = .named
  · rw [ownerPath_of_named hs hnamed, ownerPath_of_named hs' (ObjectKind.plain_eq_named.1
      (hk.trans (ObjectKind.plain_eq_named.2 hnamed))), hn]
  · rw [ownerPath_of_ne_named hs hnamed, ownerPath_of_ne_named hs' fun h' => hnamed
      (ObjectKind.plain_eq_named.1 (hk.symm.trans (ObjectKind.plain_eq_named.2 h')))]

theorem pathTo (hb : b.WellFormed) (hi : i < b.objects.length) : b'.pathTo i = b.pathTo i := by
  have hs := getElem?_eq_getElem hi
  obtain ⟨s', hs', hn, hk, -⟩ := h.object i _ hs
  cases hkind : b.objects[i].kind with
  | state owner group isGlobal =>
    have hp : b.objects[i].kind.plain = .state owner group false := by rw [hkind]; rfl
    rw [pathTo_of_state hs hp, pathTo_of_state hs' (hk.trans hp), hn]
    obtain ⟨o, ho, -⟩ := hb.owner hs hp
    rw [h.ownerPath (List.getElem?_eq_some_iff.1 ho).1]
  | root =>
    rw [hkind] at hk
    rw [pathTo_of_not_isState hs (by simp [StyleObject.isState, hkind]), pathTo_of_not_isState hs'
      (by simp [StyleObject.isState, ObjectKind.plain_eq_root.1 hk]), h.ownerPath hi]
  | named =>
    rw [hkind] at hk
    rw [pathTo_of_not_isState hs (by simp [StyleObject.isState, hkind]), pathTo_of_not_isState hs'
      (by simp [StyleObject.isState, ObjectKind.plain_eq_named.1 hk]), h.ownerPath hi]

theorem class? (hc : b.class? name = some id) : b'.class? name = some id := by
  obtain ⟨i, hi, rfl⟩ := Option.map_eq_some_iff.1 hc
  obtain ⟨hlt, hp, hmin⟩ := findIdx?_eq_some_iff_getElem.1 hi
  -- the objects in the same places are classes with the same names
  have key : ∀ j (hj : j < b.objects.length), ∃ hj' : j < b'.objects.length,
      (b'.objects[j].kind == .named && b'.objects[j].name == name)
        = (b.objects[j].kind == .named && b.objects[j].name == name) := by
    intro j hj
    obtain ⟨s', hs', hn, hk, -⟩ := h.object j _ (getElem?_eq_getElem hj)
    obtain ⟨hj', rfl⟩ := List.getElem?_eq_some_iff.1 hs'
    refine ⟨hj', ?_⟩
    have hnamed : b'.objects[j].kind = .named ↔ b.objects[j].kind = .named := by
      rw [← ObjectKind.plain_eq_named, hk, ObjectKind.plain_eq_named]
    rw [hn, Bool.eq_iff_iff]
    simp [hnamed]
  unfold Block.class?
  obtain ⟨hlt', hkey⟩ := key i hlt
  rw [findIdx?_eq_some_iff_getElem.2 ⟨hlt', hkey.trans hp, fun j hj => ?_⟩, h.number]
  · rfl
  · obtain ⟨hj', hkeyj⟩ := key j (by omega)
    rw [hkeyj]
    exact hmin j hj

theorem find?_states (hb : b.WellFormed) (hs : b.objects[i]? = some s) (group : Option String)
    (name : String) :
    (s.states.find? fun j => b'.objects[j]?.any fun t => t.name == name && t.group? == group)
      = s.states.find? fun j => b.objects[j]?.any fun t => t.name == name && t.group? == group := by
  refine find?_congr fun j hj => ?_
  obtain ⟨t, g, ht, hk⟩ := hb.states _ _ _ hs hj
  obtain ⟨t', ht', hn, hk', -⟩ := h.object _ _ ht
  obtain ⟨_, hkt⟩ := ObjectKind.plain_eq_state.1 hk
  obtain ⟨_, hkt'⟩ := ObjectKind.plain_eq_state.1 (hk'.trans hk)
  simp [ht, ht', hn, StyleObject.group?, hkt, hkt']

theorem state? (hb : b.WellFormed) {owner : ObjectId} {group : Option String}
    (hs : b.state? owner group name = some id) : b'.state? owner group name = some id := by
  obtain ⟨s, hs, hbl, hf⟩ := state?_eq_some.1 hs
  obtain ⟨hob, hos⟩ := object?_eq_some.1 hs
  obtain ⟨s', hs', -, -, extra, hst⟩ := h.object _ _ hos
  refine state?_eq_some.2 ⟨s', object?_eq_some.2 ⟨hob.trans h.number.symm, hs'⟩,
    hbl.trans h.number.symm, ?_⟩
  rw [← hst, find?_append, h.find?_states hb hos, hf]
  rfl

theorem owner? {owner : ObjectId} (ho : b.owner? path = some owner) :
    b'.owner? path = some owner := by
  unfold Block.owner? at ho ⊢
  cases hn : path.className with
  | some name =>
    rw [hn] at ho
    exact h.class? ho
  | none =>
    rw [hn] at ho
    rw [← ho, Block.root, Block.root, h.number]

theorem find? (hb : b.WellFormed) (hf : b.find? path = some id) : b'.find? path = some id := by
  obtain ⟨owner, ho, hf⟩ := find?_eq_some.1 hf
  refine find?_eq_some.2 ⟨owner, h.owner? ho, ?_⟩
  cases hst : path.state with
  | some state =>
    rw [hst] at hf
    exact h.state? hb hf
  | none =>
    rw [hst] at hf
    exact hf

theorem wellFormed (hb : b.WellFormed)
    (hstates : ∀ (i : Nat) (s' : StyleObject) (j : Nat), b'.objects[i]? = some s' → j ∈ s'.states →
      (∃ s, b.objects[i]? = some s ∧ j ∈ s.states) ∨ ∃ t group, b'.objects[j]? = some t ∧
      t.kind.plain = .state i group false)
    (hnew : ∀ i, b.objects.length ≤ i → i < b'.objects.length → b'.find? (b'.pathTo i) = some
      ⟨b'.number, i⟩) : b'.WellFormed := by
  refine ⟨?_, fun i s' j hs' hj => ?_, fun i hi => ?_⟩
  · obtain ⟨s, hs, hroot⟩ := hb.root
    obtain ⟨s', hs', -, hk', -⟩ := h.object 0 s hs
    exact ⟨s', hs', ObjectKind.plain_eq_root.1 (hk'.trans (ObjectKind.plain_eq_root.2 hroot))⟩
  · rcases hstates i s' j hs' hj with ⟨s, hs, hj⟩ | hstate
    · obtain ⟨t, group, ht, hkt⟩ := hb.states i s j hs hj
      obtain ⟨t', ht', -, hkt', -⟩ := h.object j t ht
      exact ⟨t', group, ht', hkt'.trans hkt⟩
    · exact hstate
  · rcases Nat.lt_or_ge i b.objects.length with hold | hold
    · rw [h.pathTo hb hold, h.number]
      exact h.find? hb (hb.find i hold)
    · exact hnew i hold hi

end GrowsTo

/-! ## Changing objects -/

theorem getElem?_modifyObject (b : Block) (index i : Nat) (f : StyleObject → StyleObject) :
    (b.modifyObject index f).objects[i]? = b.objects[i]?.map fun s => if index = i then f s else s := by
  rw [modifyObject, getElem?_modify]
  by_cases h : index = i <;> simp [h]

theorem growsTo_modifyObject (b : Block) (index : Nat)
    (hf : ∀ s, b.objects[index]? = some s → (f s).name = s.name ∧
      (f s).kind.plain = s.kind.plain ∧ s.states <+: (f s).states) :
    b.GrowsTo (b.modifyObject index f) := by
  refine ⟨rfl, fun i s hs => ⟨if index = i then f s else s, ?_, ?_⟩⟩
  · rw [getElem?_modifyObject, hs, Option.map_some]
  split
  · rename_i hi
    exact hf s (hi ▸ hs)
  · exact ⟨rfl, rfl, prefix_rfl⟩

theorem WellFormed.modifyObject (hb : b.WellFormed) (index : Nat)
    (hf : ∀ s, b.objects[index]? = some s → (f s).name = s.name ∧
      (f s).kind.plain = s.kind.plain ∧ (f s).states = s.states) :
    (b.modifyObject index f).WellFormed := by
  have hg : b.GrowsTo (b.modifyObject index f) := b.growsTo_modifyObject index fun s hs => by
    obtain ⟨hn, hk, hst⟩ := hf s hs
    exact ⟨hn, hk, [], by rw [hst, append_nil]⟩
  refine hg.wellFormed hb (fun i s' j hs' hj => .inl ?_) fun i hold hi => ?_
  · rw [getElem?_modifyObject] at hs'
    obtain ⟨s, hs, rfl⟩ := Option.map_eq_some_iff.1 hs'
    refine ⟨s, hs, ?_⟩
    split at hj
    · rename_i hi
      rwa [(hf s (hi ▸ hs)).2.2] at hj
    · exact hj
  · exact absurd hold (Nat.not_le.2 (by simpa [Block.modifyObject] using hi))

theorem growsTo_append (b : Block) (s : StyleObject) : b.GrowsTo (b.append s).2 := by
  refine ⟨rfl, fun i t ht => ⟨t, ?_, rfl, rfl, prefix_rfl⟩⟩
  rw [append, getElem?_append_left (List.getElem?_eq_some_iff.1 ht).1]
  exact ht

theorem getElem?_append_length (b : Block) (s : StyleObject) :
    (b.append s).2.objects[b.objects.length]? = some s := by
  simp [append]

theorem class?_append (b : Block) (h : b.class? name = none) :
    (b.append (.new name .named)).2.class? name = some ⟨b.number, b.objects.length⟩ := by
  have hnone : (b.objects.findIdx? fun s => s.kind == .named && s.name == name) = none :=
    Option.map_eq_none_iff.1 h
  simp [class?, append, findIdx?_append, hnone, StyleObject.new]

/-- **Making a class keeps the objects in order, and the class is found by its name.** -/
theorem wellFormed_obtainClass (hb : b.WellFormed) (name : String) :
    (b.obtainClass name).2.WellFormed ∧ b.GrowsTo (b.obtainClass name).2 ∧
      (b.obtainClass name).2.class? name = some (b.obtainClass name).1 := by
  unfold obtainClass
  split
  · rename_i id hc
    exact ⟨hb, .refl b, hc⟩
  rename_i hc
  have hg := b.growsTo_append (.new name .named)
  have hclass := b.class?_append hc
  refine ⟨hg.wellFormed hb (fun i s j hs hj => .inl ?_) fun i hold hi => ?_, hg, hclass⟩
  · rw [append, getElem?_append] at hs
    split at hs
    · exact ⟨s, hs, hj⟩
    -- the new class has no states
    obtain rfl : StyleObject.new name .named = s := by
      have := mem_of_getElem? hs
      simpa [eq_comm] using this
    simp [StyleObject.new] at hj
  · obtain rfl : i = b.objects.length := by
      have hlt : i < b.objects.length + 1 := by simpa [append] using hi
      omega
    have hs := b.getElem?_append_length (.new name .named)
    rw [pathTo_of_not_isState hs rfl, ownerPath_of_named hs rfl]
    exact find?_eq_some.2 ⟨_, hclass, rfl⟩

/-! ## Making states -/

/-- The block with one more state, which its owner lists. -/
def withState (b : Block) (owner : Nat) (group : Option String) (name : String) : Block :=
  (b.append (.new name (.state owner group false))).2.modifyObject owner
    fun s => { s with states := s.states ++ [b.objects.length] }

theorem getElem?_withState (b : Block) {owner : Nat} (ho : owner < b.objects.length)
    (group : Option String) (name : String) (i : Nat) :
    (b.withState owner group name).objects[i]?
      = if i = b.objects.length then some (.new name (.state owner group false))
        else b.objects[i]?.map fun s =>
          if owner = i then { s with states := s.states ++ [b.objects.length] } else s := by
  rw [withState, getElem?_modifyObject, append]
  rcases Nat.lt_trichotomy i b.objects.length with hi | rfl | hi
  · rw [getElem?_append_left hi, if_neg (by omega)]
  · simp [ho.ne]
  · rw [if_neg (by omega), getElem?_eq_none (by simp; omega), getElem?_eq_none (by omega)]

theorem growsTo_withState (b : Block) (owner : Nat) (group : Option String) (name : String) :
    b.GrowsTo (b.withState owner group name) :=
  (b.growsTo_append _).trans (growsTo_modifyObject _ _ fun _ _ => ⟨rfl, rfl, prefix_append _ _⟩)

theorem state?_withState (hb : b.WellFormed) {owner : ObjectId} (hs : b.object? owner = some s)
    (hnone : b.state? owner group name = none) :
    (b.withState owner.index group name).state? owner group name
      = some ⟨b.number, b.objects.length⟩ := by
  obtain ⟨hob, hos⟩ := object?_eq_some.1 hs
  have ho : owner.index < b.objects.length := (List.getElem?_eq_some_iff.1 hos).1
  have hold : s.states.find? (fun j => b.objects[j]?.any fun t =>
      t.name == name && t.group? == group) = none := by
    cases hf : s.states.find? (fun j => b.objects[j]?.any fun t =>
        t.name == name && t.group? == group) with
    | none => rfl
    | some j =>
      have : b.state? owner group name = some ⟨b.number, j⟩ := state?_eq_some.2 ⟨s, hs, rfl, hf⟩
      rw [this] at hnone
      cases hnone
  refine state?_eq_some.2 ⟨{ s with states := s.states ++ [b.objects.length] },
    object?_eq_some.2 ⟨hob, ?_⟩, rfl, ?_⟩
  · rw [getElem?_withState b ho, if_neg ho.ne, hos]
    simp
  · rw [find?_append, (b.growsTo_withState _ _ _).find?_states hb hos, hold, Option.none_or,
      find?_singleton, getElem?_withState b ho, if_pos rfl]
    simp [StyleObject.new, StyleObject.group?]

theorem wellFormed_withState (hb : b.WellFormed) {owner : ObjectId} (hs : b.object? owner = some s)
    (hstate : s.isState = false) (hnone : b.state? owner group name = none) :
    (b.withState owner.index group name).WellFormed := by
  obtain ⟨hob, hos⟩ := object?_eq_some.1 hs
  have ho : owner.index < b.objects.length := (List.getElem?_eq_some_iff.1 hos).1
  have hg := b.growsTo_withState owner.index group name
  have hobj := b.getElem?_withState ho group name
  refine hg.wellFormed hb (fun i s' j hs' hj => ?_) fun i hold hi => ?_
  · rw [hobj] at hs'
    split at hs'
    · cases hs'
      simp [StyleObject.new] at hj
    obtain ⟨t, ht, rfl⟩ := Option.map_eq_some_iff.1 hs'
    split at hj
    · rename_i hi
      rcases mem_append.1 hj with hj | hj
      · exact .inl ⟨t, ht, hj⟩
      · subst hi
        rw [mem_singleton.1 hj]
        exact .inr ⟨_, group, by rw [hobj, if_pos rfl], rfl⟩
    · exact .inl ⟨t, ht, hj⟩
  · obtain rfl : i = b.objects.length := by
      have hlt : i < b.objects.length + 1 := by simpa [withState, append, modifyObject] using hi
      omega
    -- the path of the new state is that of its owner, which is found, with the state behind it
    have hown := hb.find _ ho
    rw [pathTo_of_not_isState hos hstate] at hown
    obtain ⟨o, ho', hf⟩ := find?_eq_some.1 hown
    rw [state_ownerPath] at hf
    cases hf
    rw [pathTo_of_state ((hobj _).trans (if_pos rfl)) rfl, hg.ownerPath ho]
    refine find?_eq_some.2 ⟨_, hg.owner? ho', ?_⟩
    rw [← hob]
    exact state?_withState hb hs hnone

theorem obtainState_ok {owner : ObjectId} (h : b.obtainState owner group name = .ok (id, b')) :
    b' = b ∧ b.state? owner group name = some id ∨
      b' = b.withState owner.index group name ∧ id = ⟨b.number, b.objects.length⟩ ∧
        b.state? owner group name = none ∧ ∃ s, b.object? owner = some s ∧ s.isState = false := by
  unfold obtainState at h
  split at h
  · cases h
  rename_i s hs
  split at h
  · cases h
  rename_i hstate
  split at h
  · rename_i hfound
    cases h
    exact .inl ⟨rfl, hfound⟩
  · rename_i hnone
    cases h
    exact .inr ⟨rfl, rfl, hnone, s, hs, by simpa using hstate⟩

/-- **Making a state keeps the objects in order, and the state is found with its owner.** -/
theorem wellFormed_obtainState (hb : b.WellFormed) {owner : ObjectId}
    (h : b.obtainState owner group name = .ok (id, b')) :
    b'.WellFormed ∧ b.GrowsTo b' ∧ b'.state? owner group name = some id := by
  rcases obtainState_ok h with ⟨rfl, hfound⟩ | ⟨rfl, rfl, hnone, s, hs, hstate⟩
  · exact ⟨hb, .refl _, hfound⟩
  · exact ⟨wellFormed_withState hb hs hstate hnone, growsTo_withState _ _ _ _,
      state?_withState hb hs hnone⟩

/-! ## Making the object of a path -/

/-- The root or the class that a path names, made if it is not there. -/
def obtainOwner (b : Block) (path : ObjectPath) : ObjectId × Block :=
  match path.className with
  | some name => b.obtainClass name
  | none => (b.root, b)

/-- The object that a path names, made if it is not there, and the block with what was made. -/
def obtainPath (b : Block) (path : ObjectPath) : Except BlockError ObjectId × Block :=
  let (owner, b) := b.obtainOwner path
  match path.state with
  | none => (.ok owner, b)
  | some state =>
    match b.obtainState owner state.group state.name with
    | .ok (id, b) => (.ok id, b)
    | .error e => (.error e, b)

theorem wellFormed_obtainOwner (hb : b.WellFormed) (path : ObjectPath) :
    (b.obtainOwner path).2.WellFormed ∧ b.GrowsTo (b.obtainOwner path).2 ∧
      (b.obtainOwner path).2.owner? path = some (b.obtainOwner path).1 := by
  unfold obtainOwner owner?
  cases path.className with
  | some name => exact wellFormed_obtainClass hb name
  | none => exact ⟨hb, .refl b, rfl⟩

/-- **Making the object of a path keeps the objects in order, and the path then leads to it.** -/
theorem wellFormed_obtainPath (hb : b.WellFormed) (path : ObjectPath) :
    (b.obtainPath path).2.WellFormed ∧ b.GrowsTo (b.obtainPath path).2 ∧
      ∀ id, (b.obtainPath path).1 = .ok id → (b.obtainPath path).2.find? path = some id := by
  obtain ⟨hb₁, hg₁, hf₁⟩ := wellFormed_obtainOwner hb path
  unfold obtainPath
  cases hs : path.state with
  | none =>
    refine ⟨hb₁, hg₁, fun id hid => find?_eq_some.2 ⟨_, hf₁, ?_⟩⟩
    rw [hs]
    exact Except.ok.inj hid
  | some state =>
    dsimp only
    split
    · rename_i id b₂ heq
      obtain ⟨hb₂, hg₂, hf₂⟩ := wellFormed_obtainState hb₁ heq
      refine ⟨hb₂, hg₁.trans hg₂, fun id' hid => find?_eq_some.2 ⟨_, hg₂.owner? hf₁, ?_⟩⟩
      rw [hs]
      cases hid
      exact hf₂
    · exact ⟨hb₁, hg₁, fun id hid => by cases hid⟩

theorem exists_objects_contribute (b : Block) (keys : List (ObjectId × Option String))
    (c : Contribution) :
    ∃ l, keys.foldl (fun b key => b.contribute key.1 key.2 c) b = { b with objects := l } := by
  refine foldlRecOn (motive := fun b' : Block => ∃ l, b' = { b with objects := l }) _ _ ⟨_, rfl⟩ ?_
  rintro _ ⟨l, rfl⟩ key -
  unfold contribute
  split <;> exact ⟨_, rfl⟩

theorem exists_objects_obtainPath (b : Block) (path : ObjectPath) :
    ∃ l, (b.obtainPath path).2 = { b with objects := l } := by
  have howner : ∃ l, (b.obtainOwner path).2 = { b with objects := l } := by
    unfold obtainOwner obtainClass
    split
    · split <;> exact ⟨_, rfl⟩
    · exact ⟨_, rfl⟩
  obtain ⟨l, hl⟩ := howner
  unfold obtainPath
  dsimp only
  split
  · exact ⟨l, hl⟩
  split
  · rename_i id b' heq
    rcases obtainState_ok heq with ⟨rfl, -⟩ | ⟨rfl, -⟩
    · exact ⟨l, hl⟩
    · rw [hl]
      exact ⟨_, rfl⟩
  · exact ⟨l, hl⟩

end Block

end StyleBlocks
