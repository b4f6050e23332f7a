import Mathlib.Data.List.Induction
import Mathlib.Data.List.Perm.Basic
import StyleBlocks.ObjectPath
import StyleBlocks.Proofs.Steps

/-!
# The compounds that name an object

A compound is read one condition after the other, with a flag for the root and an error as soon as
something does not fit.  What is read can be told from the compound at once: the conditions of each
kind are counted, and their order does not matter.

Main result: `ObjectPath.ofCompound_ok_iff`.
-/

namespace StyleBlocks

open Simple ObjectPath.Reading List

variable {block : Option String} {c compound : Compound} {path : ObjectPath} {r : ObjectPath.Reading}
  {rest simples simples' : List Simple} {s : Simple}

/-! ## The parts of a compound -/

namespace Simple

def tag? : Simple → Option String
  | .tag name => some name
  | _ => none

/-- A class of the block; `root` is none. -/
def objectClass? : Simple → Option String
  | .className name => if name = "root" then none else some name
  | _ => none

def isRoot : Simple → Bool
  | .className name => decide (name = "root")
  | .pseudoClass name argument => decide (name = "scope" ∧ argument = none)
  | _ => false

def isPseudo : Simple → Bool
  | .pseudoClass name argument => !decide (name = "scope" ∧ argument = none)
  | .pseudoElement .. => true
  | _ => false

/-- No id and not the universal selector; of the attributes only states, alone or with `=` and a
value. -/
def IsPermitted : Simple → Prop
  | .universal | .id _ => False
  | .hasAttribute a => a.space = some stateSpace ∧ a.operator = a.value.map fun _ => .equals
  | _ => True

end Simple

/-- The state that an attribute stands for, alone or with `=` and a value. -/
def Attribute.stateName (a : Attribute) : StateName :=
  match a.value with
  | none => ⟨none, a.name⟩
  | some value => ⟨some a.name, value⟩

theorem ObjectPath.stateOf_ok_iff {a : Attribute} {state : StateName} :
    stateOf a = .ok state ↔ (a.operator = a.value.map fun _ => .equals) ∧ state = a.stateName := by
  unfold stateOf Attribute.stateName
  rcases a.operator with _ | _ | _ <;> cases a.value <;> simp [eq_comm]

namespace Compound

def tags (c : Compound) : List String :=
  c.filterMap Simple.tag?

def objectClasses (c : Compound) : List String :=
  c.filterMap Simple.objectClass?

def objectPath (c : Compound) : ObjectPath :=
  ⟨c.tags.head?, c.objectClasses.head?, c.attributes.head?.map Attribute.stateName⟩

/-- Conditions that may stand together: a tag only in the first place, and one class and one state at
most. -/
structure Agrees (c : Compound) : Prop where
  permitted : ∀ x ∈ c, x.IsPermitted
  tag : tags c.tail = []
  oneClass : c.objectClasses.length ≤ 1
  oneState : c.attributes.length ≤ 1

/-- A compound that names an object: the root and a class are not together in it, and it has one of
the parts of a path. -/
structure NamesObject (c : Compound) : Prop extends Agrees c where
  root : c.any Simple.isRoot = true → c.objectClasses = []
  object : c.any Simple.isRoot = true ∨ c.tags ≠ [] ∨ c.objectClasses ≠ [] ∨ c.attributes ≠ []

/-- The condition may stand behind those of the compound. -/
@[mk_iff]
structure Admits (c : Compound) (s : Simple) : Prop where
  permitted : s.IsPermitted
  tag : s.tag? = none
  oneClass : s.objectClass? = none ∨ c.objectClasses = []
  oneState : s.attribute? = none ∨ c.attributes = []

theorem agrees_concat (h : c = [] → s.tag? = none) : Agrees (c ++ [s]) ↔ c.Agrees ∧ c.Admits s := by
  have htail : tags (c ++ [s]).tail = [] ↔ tags c.tail = [] ∧ s.tag? = none := by
    cases c with
    | nil => simpa [tags] using h rfl
    | cons x c => simp [tags]
  have hall : (∀ x ∈ c ++ [s], x.IsPermitted) ↔ (∀ x ∈ c, x.IsPermitted) ∧ s.IsPermitted := by
    rw [forall_mem_append, forall_mem_singleton]
  constructor
  · rintro ⟨hpermitted, htag, hclass, hstate⟩
    rw [objectClasses, filterMap_concat, length_append_toList_le_one] at hclass
    rw [attributes, filterMap_concat, length_append_toList_le_one] at hstate
    rw [hall] at hpermitted
    rw [htail] at htag
    exact ⟨⟨hpermitted.1, htag.1, hclass.1, hstate.1⟩, hpermitted.2, htag.2, hclass.2, hstate.2⟩
  · rintro ⟨⟨hpermitted, htag, hclass, hstate⟩, hpermitted', htag', hclass', hstate'⟩
    refine ⟨hall.2 ⟨hpermitted, hpermitted'⟩, htail.2 ⟨htag, htag'⟩, ?_, ?_⟩
    · rw [objectClasses, filterMap_concat]
      exact length_append_toList_le_one.2 ⟨hclass, hclass'⟩
    · rw [attributes, filterMap_concat]
      exact length_append_toList_le_one.2 ⟨hstate, hstate'⟩

end Compound

namespace ObjectPath

open Compound

/-! ## Reading -/

def Reading.of (c : Compound) : Reading :=
  ⟨c.objectPath, c.any Simple.isRoot, c.filter Simple.isPseudo⟩

/-- **What one more condition adds.** -/
theorem step_ok_iff : (of c).step compound s = .ok r ↔ c.Admits s ∧ r = .of (c ++ [s]) := by
  rw [admits_iff, of, of, objectPath, objectPath, tags, tags, objectClasses, objectClasses,
    attributes, attributes, filterMap_concat, filterMap_concat, filterMap_concat, any_append,
    filter_append, @eq_comm _ r]
  cases s with
  | tag | universal | id => simp [step, IsPermitted, tag?]
  | className name =>
    by_cases hroot : name = "root"
    · simp [step, IsPermitted, isRoot, tag?, objectClass?, attribute?, isPseudo, hroot]
    · cases c.filterMap objectClass? <;>
        simp [step, IsPermitted, isRoot, tag?, objectClass?, attribute?, isPseudo, hroot]
  | hasAttribute a =>
    have hof : (Simple.hasAttribute a).IsPermitted ↔
        a.space = some stateSpace ∧ ∃ state, stateOf a = .ok state := by
      simp [IsPermitted, stateOf_ok_iff]
    rw [hof, step]
    split
    · rename_i hspace
      cases c.filterMap attribute? with
      | nil =>
        cases hs : stateOf a with
        | error e => simp [Except.map]
        | ok state =>
          obtain ⟨-, rfl⟩ := stateOf_ok_iff.1 hs
          simp [hspace, Except.map, isRoot, tag?, objectClass?, attribute?, isPseudo]
      | cons b bs => simp [attribute?]
    · rename_i hspace
      simp [hspace]
  | pseudoClass name argument =>
    by_cases hroot : name = "scope" ∧ argument = none <;>
      simp [step, IsPermitted, isRoot, tag?, objectClass?, attribute?, isPseudo, hroot]
  | pseudoElement name argument =>
    rw [filter_cons_of_pos rfl]
    simp [step, IsPermitted, isRoot, tag?, objectClass?, attribute?]

theorem foldlM_step_ok_iff (hc : c.Agrees) (hfirst : c = [] → simples.head?.bind tag? = none) :
    simples.foldlM (step compound) (.of c) = .ok r ↔
      Agrees (c ++ simples) ∧ r = .of (c ++ simples) := by
  induction simples using reverseRecOn generalizing r with
  | nil => simp [hc, pure, Except.pure, eq_comm]
  | append_singleton simples s ih =>
    have hfirst' : c = [] → simples.head?.bind tag? = none := by
      intro h
      cases simples with
      | nil => rfl
      | cons x simples => exact hfirst h
    have hs : c ++ simples = [] → s.tag? = none := by
      intro h
      obtain ⟨rfl, rfl⟩ := append_eq_nil_iff.1 h
      exact hfirst rfl
    rw [foldlM_append, ← append_assoc, agrees_concat hs]
    constructor
    · intro h
      obtain ⟨r', hr', h⟩ := except_bind_ok h
      obtain ⟨hagrees, rfl⟩ := (ih hfirst').1 hr'
      obtain ⟨r', hstep, h⟩ := except_bind_ok h
      cases h
      obtain ⟨hadmits, rfl⟩ := step_ok_iff.1 hstep
      exact ⟨⟨hagrees, hadmits⟩, rfl⟩
    · rintro ⟨⟨hagrees, hadmits⟩, rfl⟩
      rw [(ih hfirst').2 ⟨hagrees, rfl⟩]
      change (step compound _ s >>= _) = _
      rw [step_ok_iff.2 ⟨hadmits, rfl⟩]
      rfl

theorem finish_ok_iff : (of c).finish compound = .ok (path, rest) ↔
    ((c.any isRoot = true → c.objectClasses = []) ∧
      (c.any isRoot = true ∨ c.tags ≠ [] ∨ c.objectClasses ≠ [] ∨ c.attributes ≠ [])) ∧
      path = c.objectPath ∧ rest = c.filter isPseudo := by
  rw [finish, of, objectPath, @eq_comm _ path, @eq_comm _ rest]
  cases c.any isRoot <;> cases c.tags <;> cases c.objectClasses <;> cases c.attributes <;>
    simp [ObjectPath.root]

/-- **Exactly the compounds that name an object are read**, as the path of their parts. -/
theorem ofCompound_ok_iff : ofCompound c = .ok (path, rest) ↔
    c.NamesObject ∧ path = c.objectPath ∧ rest = c.filter isPseudo := by
  have hrun : ∀ tags simples, c = tags ++ simples → tags.Agrees →
      (tags = [] → simples.head?.bind tag? = none) →
      ((simples.foldlM (step c) (.of tags) >>= fun r => r.finish c) = .ok (path, rest) ↔
        c.NamesObject ∧ path = c.objectPath ∧ rest = c.filter isPseudo) := by
    intro tags simples hc htags hfirst
    have hfold (r : Reading) : simples.foldlM (step c) (.of tags) = .ok r ↔ _ :=
      foldlM_step_ok_iff htags hfirst
    rw [← hc] at hfold
    constructor
    · intro h
      obtain ⟨r, hr, h⟩ := except_bind_ok h
      obtain ⟨hagrees, rfl⟩ := (hfold r).1 hr
      obtain ⟨⟨hroot, hobject⟩, hpath⟩ := finish_ok_iff.1 h
      exact ⟨⟨hagrees, hroot, hobject⟩, hpath⟩
    · rintro ⟨⟨hagrees, hroot, hobject⟩, hpath⟩
      rw [(hfold _).2 ⟨hagrees, rfl⟩]
      exact finish_ok_iff.2 ⟨⟨hroot, hobject⟩, hpath⟩
  have hnil : Agrees [] := ⟨by simp, rfl, Nat.zero_le 1, Nat.zero_le 1⟩
  have htag (name : String) : Agrees [.tag name] :=
    ⟨forall_mem_singleton.2 trivial, rfl, Nat.zero_le 1, Nat.zero_le 1⟩
  rcases c with _ | ⟨_ | _, simples⟩
  case cons.tag name => exact hrun [.tag name] simples rfl (htag name) (by simp)
  all_goals exact hrun [] _ rfl hnil fun _ => rfl

theorem block_of_ofCompound (h : ofCompound (s :: c) = .ok (path, rest)) : path.block = s.tag? := by
  obtain ⟨hnames, rfl, -⟩ := ofCompound_ok_iff.1 h
  have htail : tags c = [] := hnames.tag
  rw [tags] at htail
  cases htag : s.tag? <;> simp [objectPath, tags, htag, htail]

theorem className_objectPath (c : Compound) : c.objectPath.className ≠ some "root" := by
  intro h
  obtain ⟨x, -, hx⟩ := mem_filterMap.1 (mem_of_head? h)
  cases x <;> simp [objectClass?] at hx

/-! ## The order of the conditions -/

theorem exists_ofCompound_of_perm (h : simples.Perm simples') (htag : tags simples = [])
    (hok : ∃ rest, ofCompound ((block.map tag).toList ++ simples) = .ok (path, rest)) :
    ∃ rest, ofCompound ((block.map tag).toList ++ simples') = .ok (path, rest) := by
  obtain ⟨rest, hok⟩ := hok
  obtain ⟨hc, rfl, -⟩ := ofCompound_ok_iff.1 hok
  have hperm := h.append_left (block.map tag).toList
  have htag' : tags simples' = [] := ((h.filterMap _).symm.trans (.of_eq htag)).eq_nil
  have htags : tags ((block.map tag).toList ++ simples)
      = tags ((block.map tag).toList ++ simples') := by
    rw [tags, filterMap_append, ← tags, ← tags, htag, ← htag', tags, tags, tags, filterMap_append]
  have hclasses : objectClasses ((block.map tag).toList ++ simples) = objectClasses _ :=
    eq_of_perm (hperm.filterMap _) hc.oneClass
  have hattributes : attributes ((block.map tag).toList ++ simples) = attributes _ :=
    eq_of_perm (hperm.filterMap _) hc.oneState
  refine ⟨_, ofCompound_ok_iff.2 ⟨⟨⟨fun x hx => hc.permitted x (hperm.mem_iff.2 hx), ?_,
    hclasses ▸ hc.oneClass, hattributes ▸ hc.oneState⟩, ?_, ?_⟩, ?_, rfl⟩⟩
  · cases block with
    | some name => exact htag'
    | none =>
      exact filterMap_eq_nil_iff.2 fun x hx =>
        filterMap_eq_nil_iff.1 htag' x (mem_of_mem_tail hx)
  · rw [← hclasses, ← hperm.any_eq]
    exact hc.root
  · rw [← htags, ← hclasses, ← hattributes, ← hperm.any_eq]
    exact hc.object
  · rw [objectPath, objectPath, htags, hclasses, hattributes]

/-- **A compound is read exactly if it names an object**, and then as the path of its parts, with the
other pseudo-classes and pseudo-elements left over in their order.  If a tag stands only in the first
place, the order of the conditions behind it changes neither success nor the path. -/
theorem ofCompound_exact (c : Compound) :
    (∀ path rest, ofCompound c = .ok (path, rest) ↔
      c.NamesObject ∧ path = c.objectPath ∧ rest = c.filter Simple.isPseudo) ∧
    ∀ (block : Option String) (simples simples' : List Simple),
      c = (block.map Simple.tag).toList ++ simples → tags simples = [] → simples.Perm simples' →
      ∀ path, (∃ rest, ofCompound c = .ok (path, rest)) ↔
        ∃ rest, ofCompound ((block.map Simple.tag).toList ++ simples') = .ok (path, rest) := by
  refine ⟨fun path rest => ofCompound_ok_iff, ?_⟩
  rintro block simples simples' rfl htag h path
  have htag' : tags simples' = [] := ((h.filterMap _).symm.trans (.of_eq htag)).eq_nil
  exact ⟨exists_ofCompound_of_perm h htag, exists_ofCompound_of_perm h.symm htag'⟩

end ObjectPath

end StyleBlocks
