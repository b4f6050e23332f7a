import Mathlib.Data.List.Perm.Basic
import StyleBlocks.Selector.Parser
import StyleBlocks.Stylesheet.Rules

/-!
# The cascade

What an element that has some classes, and of which nothing else is known, gets for a property: of
all declarations in rules that select the element the one whose selector has most classes, and the
last one in the text among those.
-/

namespace StyleBlocks

open List

variable {l : List (Nat × String)}

/-! ## Rules that select an element -/

def Selector.selects (classes : List String) (s : Selector) : Bool :=
  s.context.isEmpty && s.key.all fun
    | .className name => classes.contains name
    | .universal => true
    | _ => false

def Selector.weight (s : Selector) : Nat :=
  (s.compounds.flatMap Compound.classes).length

/-- The weight with which a rule selects an element: that of the heaviest selector that does. -/
def Rule.weight? (classes : List String) (r : Rule) : Option Nat :=
  match Selector.parseList r.selector with
  | .ok selectors => ((selectors.filter (Selector.selects classes)).map Selector.weight).max?
  | .error _ => none

def Rule.setting (r : Rule) (property : String) : List Declaration :=
  r.declarations.filter fun d => sameIgnoringCase d.property property

/-- The values that a rule gives an element for a property, with their weight. -/
def Rule.applied (classes : List String) (property : String) (r : Rule) : List (Nat × String) :=
  match r.weight? classes with
  | none => []
  | some weight => (r.setting property).map fun d => (weight, d.value)

/-- The values that the rules of some nodes give an element for a property, in their order. -/
def applied (classes : List String) (property : String) (nodes : List Node) : List (Nat × String) :=
  (rulesOf nodes).flatMap (Rule.applied classes property)

/-! ## The strongest value -/

def lastAt (weight : Nat) (l : List (Nat × String)) : Option String :=
  ((l.filter fun e => e.1 == weight).getLast?).map Prod.snd

/-- The last one of the values with the greatest weight. -/
def strongest (l : List (Nat × String)) : Option String :=
  (l.map Prod.fst).max?.bind fun weight => lastAt weight l

/-- The value that an element gets for a property. -/
def cascade (classes : List String) (property : String) (nodes : List Node) : Option String :=
  strongest (applied classes property nodes)

theorem lastAt_append (weight : Nat) (l₁ l₂ : List (Nat × String)) :
    lastAt weight (l₁ ++ l₂) = (lastAt weight l₂).or (lastAt weight l₁) := by
  unfold lastAt
  rw [filter_append, getLast?_append]
  cases (l₂.filter fun e => e.1 == weight).getLast? <;> rfl

theorem lastAt_flatMap {α : Type} (weight : Nat) (f : α → List (Nat × String)) (l : List α) :
    lastAt weight (l.flatMap f) = l.reverse.findSome? fun a => lastAt weight (f a) := by
  induction l with
  | nil => rfl
  | cons a l ih =>
    rw [flatMap_cons, lastAt_append, ih, reverse_cons, findSome?_append, findSome?_singleton]

theorem lastAt_eq_none {weight : Nat} : lastAt weight l = none ↔ ∀ e ∈ l, e.1 ≠ weight := by
  simp [lastAt]

theorem lastAt_map {α : Type} (weight : Nat) (value : α → String) (l : List α) :
    lastAt weight (l.map fun a => (weight, value a)) = l.getLast?.map value := by
  have hall : (l.map fun a => (weight, value a)).filter (fun e => e.1 == weight)
      = l.map fun a => (weight, value a) := by
    simp
  rw [lastAt, hall, getLast?_map, Option.map_map]
  rfl

theorem mem_map_fst_iff {weight : Nat} : weight ∈ l.map Prod.fst ↔ lastAt weight l ≠ none := by
  rw [Ne, lastAt_eq_none, mem_map]
  push Not
  exact Iff.rfl

theorem strongest_congr {l' : List (Nat × String)}
    (h : ∀ weight, lastAt weight l = lastAt weight l') : strongest l = strongest l' := by
  have hmem : ∀ weight, weight ∈ l.map Prod.fst ↔ weight ∈ l'.map Prod.fst := by
    intro weight
    rw [mem_map_fst_iff, mem_map_fst_iff, h]
  have hmax : (l.map Prod.fst).max? = (l'.map Prod.fst).max? := by
    ext weight
    rw [max?_eq_some_iff, max?_eq_some_iff, hmem]
    simp only [hmem]
  rw [strongest, strongest, hmax]
  exact congrArg _ (funext h)

theorem lastAt_flatMap_congr {α : Type} {f f' : α → List (Nat × String)} {weight : Nat} {l : List α}
    (h : ∀ a ∈ l, lastAt weight (f a) = lastAt weight (f' a)) :
    lastAt weight (l.flatMap f) = lastAt weight (l.flatMap f') := by
  induction l with
  | nil => rfl
  | cons a l ih =>
    rw [flatMap_cons, flatMap_cons, lastAt_append, lastAt_append, h a (by simp),
      ih fun b hb => h b (by simp [hb])]

theorem lastAt_flatMap_of_eq {α : Type} {f : α → List (Nat × String)} {l : List α}
    {values : List (Nat × String)} (h : ∀ a ∈ l, f a = [] ∨ f a = values) (weight : Nat) :
    lastAt weight (l.flatMap f) = if ∃ a ∈ l, f a = values then lastAt weight values else none := by
  induction l with
  | nil => rfl
  | cons a l ih =>
    rw [flatMap_cons, lastAt_append, ih fun b hb => h b (by simp [hb])]
    by_cases hl : ∃ b ∈ l, f b = values
    · obtain ⟨b, hb, hvalues⟩ := hl
      rw [if_pos ⟨b, hb, hvalues⟩, if_pos ⟨b, by simp [hb], hvalues⟩]
      rcases h a (by simp) with ha | ha
      · rw [ha]
        exact Option.or_none
      · rw [ha, Option.or_self]
    · rw [if_neg hl, Option.none_or]
      by_cases ha : f a = values
      · rw [if_pos ⟨a, by simp, ha⟩, ha]
      rw [if_neg, (h a (by simp)).resolve_right ha]
      · rfl
      rintro ⟨b, hb, hvalues⟩
      rcases mem_cons.1 hb with rfl | hb
      · exact ha hvalues
      · exact hl ⟨b, hb, hvalues⟩

theorem strongest_eq (h : ∀ e ∈ l, e.1 = 1 ∨ e.1 = 2) :
    strongest l = (lastAt 2 l).or (lastAt 1 l) := by
  unfold strongest
  cases hmax : (l.map Prod.fst).max? with
  | none =>
    obtain rfl : l = [] := by simpa using hmax
    rfl
  | some weight =>
    obtain ⟨hmem, hle⟩ := max?_eq_some_iff.1 hmax
    obtain ⟨e, he, rfl⟩ := mem_map.1 hmem
    rw [Option.bind_some]
    rcases h e he with h₁ | h₂
    · have hnone : lastAt 2 l = none := lastAt_eq_none.2 fun e' he' h₂ => by
        have := hle e'.1 (mem_map_of_mem he')
        omega
      rw [hnone, Option.none_or, h₁]
    · have hsome : lastAt 2 l ≠ none := fun hnone => lastAt_eq_none.1 hnone e he h₂
      obtain ⟨value, hvalue⟩ := Option.ne_none_iff_exists'.1 hsome
      rw [h₂, hvalue, Option.some_or]

/-! ## Every order -/

section

variable {α : Type} {ks : List α} {v : String}

theorem findSome?_eq_of_forall {f : α → Option String} {l : List α}
    (h : ∀ k ∈ l, ∀ u, f k = some u → u = v) (hsome : ∃ k ∈ l, f k ≠ none) :
    l.findSome? f = some v := by
  cases hf : l.findSome? f with
  | none =>
    obtain ⟨k, hk, hne⟩ := hsome
    exact absurd (findSome?_eq_none_iff.1 hf k hk) hne
  | some u =>
    obtain ⟨k, hk, hu⟩ := exists_of_findSome?_eq_some hf
    rw [h k hk u hu]

theorem exists_perm_last {k : α} (h : k ∈ ks) : ∃ l, (l ++ [k]).Perm ks := by
  obtain ⟨l₁, l₂, rfl⟩ := append_of_mem h
  refine ⟨l₁ ++ l₂, ?_⟩
  rw [append_assoc]
  exact perm_append_comm.append_left l₁

variable {f : α → List (Nat × String)}

theorem strongest_flatMap (h : ∀ k ∈ ks, ∀ e ∈ f k, e.1 = 1 ∨ e.1 = 2) {l : List α}
    (hl : l.Perm ks) : strongest (l.flatMap f) = (l.reverse.findSome? fun k => lastAt 2 (f k)).or
      (l.reverse.findSome? fun k => lastAt 1 (f k)) := by
  rw [strongest_eq, lastAt_flatMap, lastAt_flatMap]
  intro e he
  obtain ⟨k, hk, he⟩ := mem_flatMap.1 he
  exact h k (hl.mem_iff.1 hk) e he

/-- **When some lists of values give one value in every order.**  Whichever list comes last, its own
last value with weight two is taken, so these are equal; and if there is none, so are the last
values with weight one. -/
theorem strongest_perm_iff (h : ∀ k ∈ ks, ∀ e ∈ f k, e.1 = 1 ∨ e.1 = 2) :
    (∀ l : List α, l.Perm ks → strongest (l.flatMap f) = some v) ↔
      (∀ k ∈ ks, ∀ u, lastAt 2 (f k) = some u → u = v) ∧
        ((∃ k ∈ ks, lastAt 2 (f k) ≠ none) ∨ (∃ k ∈ ks, lastAt 1 (f k) ≠ none) ∧
          ∀ k ∈ ks, ∀ u, lastAt 1 (f k) = some u → u = v) := by
  constructor
  · intro hall
    refine ⟨fun k hk u hu => ?_, or_iff_not_imp_left.2 fun hnone => ⟨?_, fun k hk u hu => ?_⟩⟩
    · obtain ⟨l, hl⟩ := exists_perm_last hk
      have hlast := hall _ hl
      rw [strongest_flatMap h hl, reverse_concat, findSome?_cons, hu] at hlast
      exact Option.some.inj hlast
    all_goals
      push Not at hnone
      have hnone : ∀ l : List α, l.Perm ks → (l.reverse.findSome? fun k => lastAt 2 (f k)) = none :=
        fun l hl => findSome?_eq_none_iff.2 fun k hk =>
          hnone k (hl.mem_iff.1 (mem_reverse.1 hk))
    · have hone := hall ks (Perm.refl ks)
      rw [strongest_flatMap h (Perm.refl ks), hnone ks (Perm.refl ks),
        Option.none_or] at hone
      obtain ⟨k, hk, hv⟩ := exists_of_findSome?_eq_some hone
      exact ⟨k, mem_reverse.1 hk, by simp [hv]⟩
    obtain ⟨l, hl⟩ := exists_perm_last hk
    have hlast := hall _ hl
    rw [strongest_flatMap h hl, hnone _ hl, Option.none_or, reverse_concat,
      findSome?_cons, hu] at hlast
    exact Option.some.inj hlast
  · rintro ⟨htwo, hone⟩ l hl
    have hmem : ∀ k, k ∈ l.reverse ↔ k ∈ ks := fun k => mem_reverse.trans hl.mem_iff
    rw [strongest_flatMap h hl]
    by_cases hsome : ∃ k ∈ ks, lastAt 2 (f k) ≠ none
    · rw [findSome?_eq_of_forall (fun k hk => htwo k ((hmem k).1 hk)), Option.some_or]
      simpa only [hmem] using hsome
    obtain ⟨hsome', hone⟩ := hone.resolve_left hsome
    push Not at hsome
    rw [findSome?_eq_none_iff.2 fun k hk => hsome k ((hmem k).1 hk), Option.none_or]
    refine findSome?_eq_of_forall (fun k hk => hone k ((hmem k).1 hk)) ?_
    simpa only [hmem] using hsome'

end

end StyleBlocks
