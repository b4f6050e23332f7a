import Mathlib.Data.List.Basic
import StyleBlocks.Proofs.Block.Objects
import StyleBlocks.Proofs.Selector.Names
import StyleBlocks.Session.Reading

/-!
# What the rules say about the objects

Each object of a block holds what the rules of the stylesheet say about it.
-/

namespace StyleBlocks

open List

namespace Block

variable {b b' : Block} {id : ObjectId} {f : StyleObject → StyleObject} {r : Rule}

/-- The objects that a rule styles, each with the pseudo-element it is styled for. -/
def keysOf (b : Block) (r : Rule) : List (ObjectId × Option String) :=
  match Selector.parseList r.selector with
  | .ok selectors => selectors.filterMap fun s => (b.keyObject? s).map (·, s.key.pseudoName?)
  | .error _ => []

/-- Every selector of the rule is read, and its key names an object of the block. -/
def Knows (b : Block) (r : Rule) : Prop :=
  ∃ selectors, Selector.parseList r.selector = .ok selectors ∧
    ∀ s ∈ selectors, ∃ id, b.keyObject? s = some id

theorem keyObject?_eq_some {s : Selector} : b.keyObject? s = some id ↔ ∃ path rest,
    ObjectPath.ofCompound s.key = .ok (path, rest) ∧ path.block = none ∧ b.find? path = some id := by
  unfold keyObject?
  cases ObjectPath.ofCompound s.key with
  | error e => simp
  | ok read =>
    obtain ⟨path, rest⟩ := read
    cases hblock : path.block <;> simp [hblock]

theorem GrowsTo.keyObject? (h : b.GrowsTo b') (hb : b.WellFormed) {s : Selector}
    (hs : b.keyObject? s = some id) : b'.keyObject? s = some id := by
  obtain ⟨path, rest, hpath, hlocal, hfind⟩ := keyObject?_eq_some.1 hs
  exact keyObject?_eq_some.2 ⟨path, rest, hpath, hlocal, h.find? hb hfind⟩

theorem GrowsTo.knows (h : b.GrowsTo b') (hb : b.WellFormed) (hr : b.Knows r) : b'.Knows r := by
  obtain ⟨selectors, hp, hk⟩ := hr
  refine ⟨selectors, hp, fun s hs => ?_⟩
  obtain ⟨id, hid⟩ := hk s hs
  exact ⟨id, h.keyObject? hb hid⟩

theorem GrowsTo.keysOf (h : b.GrowsTo b') (hb : b.WellFormed) (hr : b.Knows r) :
    b'.keysOf r = b.keysOf r := by
  obtain ⟨selectors, hp, hk⟩ := hr
  simp only [Block.keysOf, hp]
  refine filterMap_congr fun s hs => ?_
  obtain ⟨id, hid⟩ := hk s hs
  rw [hid, h.keyObject? hb hid]

/-! ## Contributions -/

/-- What the rules say about the object in a given place, for a pseudo-element. -/
def contributionsAt (b : Block) (i : Nat) (pseudo : Option String) : List Contribution :=
  (b.objects[i]?.map fun s => s.contributions.forPseudo pseudo).getD []

/-- The contribution of a rule of the file to each object that it styles. -/
def contributionOf (file : String) (r : Rule) : Contribution :=
  ⟨r.id, some file, BlockReader.concreteDeclarations r⟩

/-- The rule says something about the object in a given place, for a pseudo-element. -/
def styles (b : Block) (i : Nat) (pseudo : Option String) (r : Rule) : Bool :=
  (b.keysOf r).contains (⟨b.number, i⟩, pseudo) && !(BlockReader.concreteDeclarations r).isEmpty

/-- Every object has the declarations of exactly the rules that style it, in their order. -/
def Mirrors (b : Block) (file : String) (rules : List Rule) : Prop :=
  ∀ i pseudo, b.contributionsAt i pseudo
    = (rules.filter (b.styles i pseudo)).map (contributionOf file)

/-- Making objects adds nothing to what is said about the others, and nothing is said about the new
ones. -/
def SaysTheSame (b b' : Block) : Prop :=
  ∀ i pseudo, b'.contributionsAt i pseudo = b.contributionsAt i pseudo

theorem saysTheSame_modifyObject (b : Block) (index : Nat)
    (hf : ∀ s, (f s).contributions = s.contributions) : b.SaysTheSame (b.modifyObject index f) := by
  intro i pseudo
  rw [contributionsAt, contributionsAt, getElem?_modifyObject, Option.map_map]
  congr 2
  funext s
  split <;> simp [hf]

theorem saysTheSame_append (b : Block) (name : String) (kind : ObjectKind) :
    b.SaysTheSame (b.append (.new name kind)).2 := by
  intro i pseudo
  rw [contributionsAt, contributionsAt, append, getElem?_append]
  split
  · rfl
  · rw [getElem?_eq_none (l := b.objects) (by omega)]
    cases i - b.objects.length <;> rfl

theorem saysTheSame_obtainClass (b : Block) (name : String) :
    b.SaysTheSame (b.obtainClass name).2 := by
  unfold obtainClass
  split
  · exact fun _ _ => rfl
  · exact b.saysTheSame_append name .named

theorem saysTheSame_obtainState {owner : ObjectId} {group : Option String} {name : String}
    (h : b.obtainState owner group name = .ok (id, b')) : b.SaysTheSame b' := by
  rcases obtainState_ok h with ⟨rfl, -⟩ | ⟨rfl, -⟩
  · exact fun _ _ => rfl
  intro i pseudo
  refine Eq.trans (saysTheSame_modifyObject _ _ ?_ i pseudo) (b.saysTheSame_append name _ i pseudo)
  intro s
  rfl

theorem contributionsAt_contribute (hid : id.block = b.number) (hi : id.index < b.objects.length)
    (pseudo : Option String) (r : Contribution) (i : Nat) (q : Option String) :
    (b.contribute id pseudo r).contributionsAt i q
      = if i = id.index ∧ q = pseudo then b.contributionsAt i q ++ [r]
        else b.contributionsAt i q := by
  rw [contribute, if_pos hid, contributionsAt, contributionsAt, getElem?_modifyObject]
  by_cases h : i = id.index
  · subst h
    rw [getElem?_eq_getElem hi]
    simp only [Option.map_some, if_true, Option.getD_some, Contributions.forPseudo_add, true_and]
    split
    · rename_i hq
      rw [hq]
    · rfl
  · simp only [h, false_and, if_false, Ne.symm h]
    simp

theorem objects_contribute (b : Block) (id : ObjectId) (pseudo : Option String) (r : Contribution) :
    (b.contribute id pseudo r).number = b.number ∧
      (b.contribute id pseudo r).objects.length = b.objects.length := by
  unfold contribute
  split <;> simp [modifyObject]

theorem contributionsAt_foldl {keys : List (ObjectId × Option String)} (hnodup : keys.Nodup)
    (hkeys : ∀ k ∈ keys, k.1.block = b.number ∧ k.1.index < b.objects.length) (r : Contribution)
    (i : Nat) (q : Option String) :
    (keys.foldl (fun b k => b.contribute k.1 k.2 r) b).contributionsAt i q
      = if (⟨b.number, i⟩, q) ∈ keys then b.contributionsAt i q ++ [r]
        else b.contributionsAt i q := by
  induction keys generalizing b with
  | nil => simp
  | cons k keys ih =>
    obtain ⟨hk, hnodup⟩ := nodup_cons.1 hnodup
    obtain ⟨hbl, hi⟩ := hkeys k (by simp)
    obtain ⟨hn, hl⟩ := b.objects_contribute k.1 k.2 r
    rw [foldl_cons, ih hnodup fun k' hk' => by
      rw [hn, hl]
      exact hkeys k' (by simp [hk']), contributionsAt_contribute hbl hi, hn]
    have hkey : (⟨b.number, i⟩, q) = k ↔ i = k.1.index ∧ q = k.2 := by
      obtain ⟨⟨n, j⟩, p⟩ := k
      simp only [Prod.mk.injEq, ObjectId.mk.injEq]
      exact ⟨fun h => ⟨h.1.2, h.2⟩, fun h => ⟨⟨hbl.symm, h.1⟩, h.2⟩⟩
    simp only [mem_cons, hkey]
    by_cases h : i = k.1.index ∧ q = k.2
    · have hnot : (⟨b.number, i⟩, q) ∉ keys := by
        rw [hkey.2 h]
        exact hk
      rw [if_neg hnot, if_pos h, if_pos (Or.inl h)]
    · rw [if_neg h]
      simp only [h, false_or]

/-- **One more rule is read**: the objects it styles get its declarations, and all others keep
what they have. -/
theorem Mirrors.snoc {file : String} {rules : List Rule} (h : b.Mirrors file rules)
    (hb : b.WellFormed) (hk : ∀ r ∈ rules, b.Knows r) (hg : b.GrowsTo b')
    (hr : ∀ i q, b'.contributionsAt i q = b.contributionsAt i q
      ++ if b'.styles i q r then [contributionOf file r] else []) :
    b'.Mirrors file (rules ++ [r]) := by
  intro i q
  have hold : rules.filter (b'.styles i q) = rules.filter (b.styles i q) := by
    refine filter_congr fun r hr => ?_
    rw [styles, styles, hg.keysOf hb (hk r hr), hg.number]
  rw [hr, h i q, filter_append, map_append, hold, filter_singleton]
  cases b'.styles i q r <;> rfl

/-! ## Names -/

/-- The names of the objects and the groups can be read. -/
def NamesReadable (b : Block) : Prop :=
  ∀ s ∈ b.objects, NulFree s.name ∧ (∀ group, s.group? = some group → NulFree group) ∧
    (s.kind = .named → s.name ≠ "root")

theorem NamesReadable.append (h : b.NamesReadable) {s : StyleObject} (hs : NulFree s.name)
    (hg : ∀ group, s.group? = some group → NulFree group)
    (hr : s.kind = .named → s.name ≠ "root") : (b.append s).2.NamesReadable := by
  intro t ht
  rcases mem_append.1 ht with ht | ht
  · exact h t ht
  · rw [mem_singleton.1 ht]
    exact ⟨hs, hg, hr⟩

theorem NamesReadable.modifyObject (h : b.NamesReadable) (index : Nat)
    (hf : ∀ s, b.objects[index]? = some s → (f s).name = s.name ∧ (f s).kind.plain = s.kind.plain) :
    (b.modifyObject index f).NamesReadable := by
  intro t ht
  obtain ⟨i, hi⟩ := getElem?_of_mem ht
  rw [getElem?_modifyObject] at hi
  obtain ⟨s, hs, rfl⟩ := Option.map_eq_some_iff.1 hi
  obtain ⟨hname, hgroup, hroot⟩ := h s (mem_of_getElem? hs)
  split
  · rename_i hi
    obtain ⟨hn, hk⟩ := hf s (hi ▸ hs)
    refine ⟨hn ▸ hname, fun group hg => hgroup group ?_, fun hr => hn ▸ hroot ?_⟩
    · unfold StyleObject.group? at hg ⊢
      cases hs : s.kind <;> cases hf : (f s).kind <;> simp_all [ObjectKind.plain]
    · cases hs : s.kind <;> simp_all [ObjectKind.plain]
  · exact ⟨hname, hgroup, hroot⟩

theorem NamesReadable.obtainPath (h : b.NamesReadable) {path : ObjectPath}
    (hp : path.IsReadable) : (b.obtainPath path).2.NamesReadable := by
  have howner : (b.obtainOwner path).2.NamesReadable := by
    unfold obtainOwner obtainClass
    split
    · rename_i name hname
      split
      · exact h
      · obtain ⟨hfree, hroot⟩ := hp.className name hname
        exact h.append hfree (by simp [StyleObject.new, StyleObject.group?]) fun _ => hroot
    · exact h
  unfold Block.obtainPath
  dsimp only
  split
  · exact howner
  rename_i state hstate
  split
  · rename_i heq
    obtain ⟨hname, hgroup⟩ := hp.state state hstate
    rcases obtainState_ok heq with ⟨rfl, -⟩ | ⟨rfl, -⟩
    · exact howner
    · exact (howner.append hname (by simpa [StyleObject.new, StyleObject.group?] using hgroup)
        (by simp [StyleObject.new])).modifyObject _ fun _ _ => ⟨rfl, rfl⟩
  · exact howner

theorem saysTheSame_obtainPath (b : Block) (path : ObjectPath) :
    b.SaysTheSame (b.obtainPath path).2 := by
  have howner : b.SaysTheSame (b.obtainOwner path).2 := by
    unfold obtainOwner
    split
    · exact b.saysTheSame_obtainClass _
    · exact fun _ _ => rfl
  unfold obtainPath
  dsimp only
  split
  · exact howner
  split
  · rename_i heq
    exact fun i pseudo => (saysTheSame_obtainState heq i pseudo).trans (howner i pseudo)
  · exact howner

end Block

end StyleBlocks
