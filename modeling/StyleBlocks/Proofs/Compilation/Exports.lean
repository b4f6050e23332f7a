import StyleBlocks.Proofs.Block.Demands
import StyleBlocks.Proofs.Compilation.Stages
import StyleBlocks.Proofs.Session.Loading

/-!
# Every object has one place in the index

The index of a block goes through its root and its classes, and from each of them through the list of
its states.  Whether that reaches all objects is a matter of what these lists hold.

Main result: `Catalog.Built.index_exact`.
-/

namespace StyleBlocks

open List

namespace Block

variable {b b' : Block} {i j : Nat} {s : StyleObject}

/-- The owner of the object in a place, if it is a state. -/
def ownerAt? (b : Block) (i : Nat) : Option Nat :=
  b.objects[i]?.bind StyleObject.owner?

/-- The places of an object's states, in the order in which they were made. -/
def statesOf (b : Block) (i : Nat) : List Nat :=
  (range b.objects.length).filter fun j => b.ownerAt? j = some i

/-- The places of all objects: each that has no owner, in the order in which they were made, followed
by its states. -/
def arrangement (b : Block) : List Nat :=
  (range b.objects.length).flatMap fun i => if b.ownerAt? i = none then i :: b.statesOf i else []

/-- States belong to objects that are none, and each object lists its states. -/
structure Arranged (b : Block) : Prop where
  owner : ∀ i j, b.ownerAt? i = some j → j < b.objects.length ∧ b.ownerAt? j = none
  states : ∀ (i : Nat) (s : StyleObject), b.objects[i]? = some s → s.states = b.statesOf i

/-- What the arrangement of the objects is a matter of. -/
def ownerAndStates (s : StyleObject) : Option Nat × List Nat :=
  (s.owner?, s.states)

theorem ownerAt?_eq (b : Block) (i : Nat) :
    b.ownerAt? i = (b.objects[i]?.map ownerAndStates).bind Prod.fst := by
  rw [Option.bind_map]
  rfl

theorem isState_eq (s : StyleObject) : s.isState = s.owner?.isSome := by
  unfold StyleObject.isState StyleObject.owner?
  cases s.kind <;> rfl

/-! ## One step -/

theorem Arranged.congr (hb : b.Arranged) (hlength : b'.objects.length = b.objects.length)
    (hlinks : ∀ i : Nat, b'.objects[i]?.map ownerAndStates = b.objects[i]?.map ownerAndStates) :
    b'.Arranged := by
  have howner : b'.ownerAt? = b.ownerAt? := funext fun i => by
    rw [ownerAt?_eq, ownerAt?_eq, hlinks]
  refine ⟨by rw [hlength, howner]; exact hb.owner, fun i s hs => ?_⟩
  obtain ⟨t, ht, hst⟩ := Option.map_eq_some_iff.1 ((hlinks i).symm.trans (by rw [hs]; rfl))
  rw [statesOf, hlength, howner, show s.states = t.states from (congrArg Prod.snd hst).symm]
  exact hb.states i t ht

theorem Arranged.modifyObject (hb : b.Arranged) {k : Nat} {f : StyleObject → StyleObject}
    (hf : ∀ s, b.objects[k]? = some s → ownerAndStates (f s) = ownerAndStates s) :
    (b.modifyObject k f).Arranged := by
  refine hb.congr (by simp [Block.modifyObject]) fun i => ?_
  rw [getElem?_modifyObject, Option.map_map]
  refine Option.map_congr fun s hs => ?_
  rw [Function.comp_apply]
  split
  · rename_i hi
    exact hf s (hi ▸ hs)
  · rfl

theorem Arranged.add (hb : b.Arranged) {o : Option Nat}
    (ho : ∀ j, o = some j → j < b.objects.length ∧ b.ownerAt? j = none)
    (hlength : b'.objects.length = b.objects.length + 1)
    (hlinks : ∀ i, b'.objects[i]?.map ownerAndStates = if i = b.objects.length then some (o, []) else
      b.objects[i]?.map fun s =>
        (s.owner?, if o = some i then s.states ++ [b.objects.length] else s.states)) :
    b'.Arranged := by
  have howner : ∀ i, b'.ownerAt? i = if i = b.objects.length then o else b.ownerAt? i := by
    intro i
    rw [ownerAt?_eq, hlinks]
    split
    · rfl
    · rw [Option.bind_map]
      rfl
  have hlt : ∀ i j, b'.ownerAt? i = some j → j < b.objects.length ∧ b.ownerAt? j = none := by
    intro i j hj
    rw [howner] at hj
    split at hj
    · exact ho j hj
    · exact hb.owner i j hj
  have hstates : ∀ i, b'.statesOf i = b.statesOf i ++ if o = some i then [b.objects.length] else [] := by
    intro i
    rw [statesOf, hlength, range_succ, filter_append, filter_singleton, howner, if_pos rfl]
    congr 1
    · refine filter_congr fun j hj => ?_
      rw [howner, if_neg (mem_range.1 hj).ne]
    · simp
  refine ⟨fun i j hj => ?_, fun i s hs => ?_⟩
  · obtain ⟨hj, hnone⟩ := hlt i j hj
    rw [howner, if_neg hj.ne]
    exact ⟨by omega, hnone⟩
  have hl := hlinks i
  rw [hs] at hl
  split at hl
  · -- no object belongs to the new one
    rename_i hi
    rw [show s.states = [] from congrArg Prod.snd (Option.some.inj hl), eq_comm, statesOf, filter_eq_nil_iff]
    intro j _ hj
    exact (hlt j i (by simpa using hj)).1.ne hi
  · obtain ⟨t, ht, hst⟩ := Option.map_eq_some_iff.1 hl.symm
    rw [show s.states = _ from (congrArg Prod.snd hst).symm, hstates, hb.states i t ht]
    split <;> simp

/-- One operation on a block: an object is demanded, a state is made global, an object gets
declarations, or something changes that leaves the objects alone. -/
inductive Operation (b : Block) : Block → Prop
  | supply (d : Demand) : Operation b (b.supply d).2
  | makeGlobal {id : ObjectId} {b' : Block} (h : b.makeGlobal id = .ok b') : Operation b b'
  | contribute (id : ObjectId) (pseudo : Option String) (c : Contribution) :
      Operation b (b.contribute id pseudo c)
  | other {b' : Block} (h : b'.objects = b.objects) : Operation b b'

theorem Arranged.operation (hb : b.Arranged) (h : b.Operation b') : b'.Arranged := by
  cases h with
  | supply d =>
    obtain ⟨id, -, -, heq⟩ | ⟨e, -, heq⟩ | ⟨name, -, -, heq⟩ |
      ⟨owner, group, name, s, -, hs, hstate, -, heq⟩ := b.supply_cases d <;> rw [heq]
    · exact hb
    · exact hb
    · refine hb.add (o := none) (fun _ h => by cases h) (by simp [append]) fun i => ?_
      rw [append, getElem?_append]
      rcases Nat.lt_trichotomy i b.objects.length with hi | rfl | hi
      · simp [hi, hi.ne, ownerAndStates]
      · simp [ownerAndStates, StyleObject.new, StyleObject.owner?]
      · simp [hi.ne', Nat.not_lt.2 hi.le, Nat.sub_ne_zero_of_lt hi]
    · obtain ⟨-, hos⟩ := object?_eq_some.1 hs
      have ho := (List.getElem?_eq_some_iff.1 hos).1
      refine hb.add (o := some owner.index) ?_ (by simp [withState, append, Block.modifyObject])
        fun i => ?_
      · rintro j ⟨⟩
        rw [ownerAt?, hos]
        exact ⟨ho, by simpa [isState_eq] using hstate⟩
      · rw [getElem?_withState b ho]
        split
        · rfl
        · rw [Option.map_map]
          refine Option.map_congr fun s _ => ?_
          by_cases hi : owner.index = i <;> simp [ownerAndStates, hi, StyleObject.owner?]
  | @makeGlobal id _ h =>
    obtain ⟨s, owner, group, isGlobal, hs, hkind, rfl⟩ := exists_of_makeGlobal h
    refine hb.modifyObject fun t ht => ?_
    obtain rfl : s = t := Option.some.inj ((object?_eq_some.1 hs).2.symm.trans ht)
    simp [ownerAndStates, StyleObject.owner?, hkind]
  | contribute id pseudo c =>
    unfold Block.contribute
    split
    · exact hb.modifyObject fun _ _ => rfl
    · exact hb
  | other h => exact hb.congr (by rw [h]) (by simp [h])

/-! ## The order of the index -/

namespace Arranged

variable (hb : b.Arranged)

include hb

theorem grouped_eq : b.grouped = b.arrangement.map (⟨b.number, ·⟩) := by
  rw [grouped, arrangement, map_flatMap]
  refine flatMap_congr fun i hi => ?_
  have hs := getElem?_eq_getElem (mem_range.1 hi)
  rw [hs, ownerAt?, hs, Option.bind_some]
  simp only [isState_eq]
  split
  · rename_i hsome
    rw [if_neg (by rintro h; simp [h] at hsome)]
    rfl
  · rename_i hnone
    rw [if_pos (by simpa using hnone), hb.states i _ hs]

theorem arrangement_perm : b.arrangement.Perm (range b.objects.length) := by
  -- a place is found behind its owner, or stands for itself
  have hplace : ∀ i j, j ∈ (if b.ownerAt? i = none then i :: b.statesOf i else []) ↔
      b.ownerAt? i = none ∧ (j = i ∨ j < b.objects.length ∧ b.ownerAt? j = some i) := by
    intro i j
    split <;> simp_all [statesOf]
  refine (perm_ext_iff_of_nodup (pairwise_flatMap.2 ⟨fun i _ => ?_, ?_⟩) nodup_range).2 fun j => ?_
  · split
    · rename_i hi
      exact nodup_cons.2 ⟨by simp [statesOf, hi], nodup_range.filter _⟩
    · exact nodup_nil
  · refine nodup_range.imp fun {i i'} hne j hj j' hj' hjj' => hne ?_
    subst hjj'
    obtain ⟨hi, hj⟩ := (hplace i j).1 hj
    obtain ⟨hi', hj'⟩ := (hplace i' j).1 hj'
    grind
  · rw [mem_flatMap]
    simp only [hplace, mem_range]
    constructor
    · rintro ⟨i, hi, -, rfl | ⟨hj, -⟩⟩
      · exact hi
      · exact hj
    · intro hj
      cases howner : b.ownerAt? j with
      | none => exact ⟨j, hj, howner, .inl rfl⟩
      | some i => exact ⟨i, (hb.owner j i howner).1, (hb.owner j i howner).2, .inr ⟨hj, rfl⟩⟩

end Arranged

theorem arranged_new (number : Nat) (identifier name : String) :
    (Block.new number identifier name).Arranged := by
  have hnone : ∀ i, (Block.new number identifier name).ownerAt? i = none := by
    intro i
    cases i <;> rfl
  refine ⟨fun i j hj => ?_, fun i s hs => ?_⟩
  · rw [hnone] at hj
    cases hj
  · rw [mem_singleton.1 (mem_of_getElem? hs)]
    simp [statesOf, hnone, StyleObject.new]

end Block

/-! ## Catalogs -/

namespace Catalog

variable {g : Catalog} {n : Nat}

/-- A catalog that is made by beginning blocks, giving up identifiers and operations on blocks. -/
inductive Built : Catalog → Prop
  | empty : Built .empty
  | start {g : Catalog} (h : Built g) (identifier name : String) :
      Built (g.startBlock identifier name).2
  | retract {g : Catalog} (h : Built g) (identifier : String) : Built (g.retract identifier)
  | edit {g : Catalog} (h : Built g) (n : Nat) (f : Block → Block)
      (hf : (g.block n).Operation (f (g.block n))) : Built (g.modifyBlock n f)

theorem Built.arranged (h : Built g) (n : Nat) : (g.block n).Arranged := by
  induction h generalizing n with
  | empty => exact Block.arranged_new _ _ _
  | start h identifier name ih =>
    rw [block_startBlock]
    split
    · exact Block.arranged_new _ _ _
    · exact ih n
  | retract h identifier ih => exact ih n
  | @edit g h m f hf ih =>
    by_cases hn : n = m
    · subst hn
      rcases Nat.lt_or_ge n g.blocks.length with hlt | hge
      · rw [block_modifyBlock_self hlt]
        exact (ih n).operation hf
      · rw [block_modifyBlock_of_le hge]
        exact ih n
    · rw [block_modifyBlock_of_ne hn]
      exact ih n

end Catalog

/-! ## The rule of exported classes -/

theorem Pass.sequence_append_ok {ps qs : List Pass} {k k' : Compilation}
    (h : sequence (ps ++ qs) k = (k', none)) :
    ∃ k₁, sequence ps k = (k₁, none) ∧ sequence qs k₁ = (k', none) := by
  induction ps generalizing k with
  | nil => exact ⟨k, rfl, h⟩
  | cons p ps ih =>
    obtain ⟨hp, h⟩ := sequence_cons_ok h
    obtain ⟨k₁, hps, hqs⟩ := ih h
    exact ⟨k₁, (sequence_cons_of_ok hp).trans hps, hqs⟩

open ClassIndex

/-- **Every object has one place in the index.**  However the blocks of a catalog were made, the entries
of a block's index are those of its objects, each once: every root or class, in the order in which they
were made, followed at once by its own states in their order.  Where it is asked for, the compiled
stylesheet is what it would be otherwise, with one rule `:export` behind it that has one declaration
for each object, in the same order. -/
theorem Catalog.Built.index_exact {g : Catalog} (h : g.Built) (n : Nat) :
    let b := g.block n
    let objects := (ofBlock g n).entries.map IndexEntry.object
    objects.Perm b.ids ∧ objects = b.arrangement.map (⟨b.number, ·⟩) ∧
      (ofBlock g n).entries = objects.map (entryOf g) ∧
      ∀ (options : Options) (sheet : Stylesheet) (k : Compilation), options.interoperable = true →
        compile g options n sheet = (k, none) →
        ∃ k', compile g { options with interoperable := false } n sheet = (k', none) ∧
          k.sheet.nodes = k'.sheet.nodes ++ [.rule ⟨k'.sheet.nextRule, ":export", .nowhere⟩
            (objects.map fun x => .declaration (entryOf g x).toDeclaration)] := by
  intro b objects
  have hb : b.Arranged := h.arranged n
  have hobjects : objects = b.grouped := (map_map ..).trans (map_id' _)
  rw [hobjects]
  refine ⟨?_, hb.grouped_eq, rfl, fun options sheet k hi hk => ?_⟩
  · rw [hb.grouped_eq]
    exact hb.arrangement_perm.map _
  rw [compile, passes, if_pos hi] at hk
  obtain ⟨k', hk', hk⟩ := Pass.sequence_append_ok hk
  refine ⟨k', ?_, ?_⟩
  · rw [compile, passes, if_neg Bool.false_ne_true, append_nil]
    exact hk'
  · cases hk
    exact congrArg (fun l => k'.sheet.nodes ++ [Node.rule _ l]) (map_map ..)

/-- The states of two objects are demanded in turn. -/
def Catalog.interleaved : Catalog :=
  [Demand.state ⟨0, 0⟩ none "on", .named "a", .state ⟨0, 2⟩ none "x", .state ⟨0, 0⟩ none "off",
    .named "b", .state ⟨0, 2⟩ (some "size") "y"].foldl
      (fun g d => g.modifyBlock 0 fun b => (b.supply d).2) (Catalog.empty.startBlock "m.css" "m").2

theorem Catalog.built_interleaved : interleaved.Built :=
  foldlRecOn _ _ (.start .empty _ _) fun _ hg d _ => .edit hg 0 _ (.supply d)

def Catalog.interleavedSheet : Stylesheet :=
  ⟨[.rule ⟨0, ".a", .nowhere⟩ [.declaration (.new "color" "red")]], none, 1⟩

theorem Catalog.Built.index_exact_interleaved :
    let objects := (ofBlock interleaved 0).entries.map IndexEntry.object
    objects.map ObjectId.index = [0, 1, 4, 2, 3, 6, 5] ∧ objects.Perm (interleaved.block 0).ids ∧
      ∃ k', compile interleaved {} 0 interleavedSheet = (k', none) ∧
        (compile interleaved { interoperable := true } 0 interleavedSheet).1.sheet.nodes
          = k'.sheet.nodes ++ [.rule ⟨k'.sheet.nextRule, ":export", .nowhere⟩
            (objects.map fun x => .declaration (entryOf interleaved x).toDeclaration)] := by
  intro objects
  have hruns : objects.map ObjectId.index = [0, 1, 4, 2, 3, 6, 5] ∧
      (compile interleaved { interoperable := true } 0 interleavedSheet).2 = none := by
    decide +kernel
  obtain ⟨hperm, -, -, hexport⟩ := index_exact built_interleaved 0
  exact ⟨hruns.1, hperm, hexport { interoperable := true } _ _ rfl (Prod.ext rfl hruns.2)⟩

end StyleBlocks
