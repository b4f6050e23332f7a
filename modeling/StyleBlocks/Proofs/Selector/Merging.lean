import StyleBlocks.Proofs.Selector.Matching
import StyleBlocks.Selector.Merge

/-!
# Merged selectors match what both selectors match

* `mergeCompounds_orderedUnion`: **merging compounds is an ordered union.**
* `mergeSelectors_exact`: **selectors with at most one combinator each are merged exactly.**
-/

namespace StyleBlocks

open Selector mergeSelectors

variable {a b : Compound} {e : Address} {k₁ k₂ : Combinator} {means : Simple → Address → Prop}
  {root : Element} {x : Simple}

theorem unionCompounds_eq (a b : Compound) :
    unionCompounds a b = a ++ (b.filter (· ∉ a)).eraseDups := by
  unfold unionCompounds
  induction b generalizing a with
  | nil => exact (List.append_nil a).symm
  | cons y b ih =>
    rw [List.foldl_cons, ih]
    split
    · rename_i hy
      rw [List.filter_cons_of_neg (by simpa using hy)]
    · rename_i hy
      rw [List.filter_cons_of_pos (by simpa using hy), List.eraseDups_cons, List.filter_filter,
        List.append_assoc, List.singleton_append]
      simp [and_comm, Bool.beq_eq_decide_eq]

theorem mem_unionCompounds : x ∈ unionCompounds a b ↔ x ∈ a ∨ x ∈ b := by
  rw [unionCompounds_eq, List.mem_append, List.mem_eraseDups, List.mem_filter]
  by_cases h : x ∈ a <;> simp [h]

theorem mem_mergeCompounds : x ∈ mergeCompounds a b ↔ x ∈ a ∨ x ∈ b := by
  unfold mergeCompounds
  rw [← mem_unionCompounds]
  cases h : x.isPseudoElement <;> simp [h]

theorem unionCompounds_append (a b c : Compound) :
    unionCompounds a (b ++ c) = unionCompounds (unionCompounds a b) c :=
  List.foldl_append

theorem filter_unionCompounds (p : Simple → Bool) (a b : Compound) :
    (unionCompounds a b).filter p = unionCompounds (a.filter p) (b.filter p) := by
  unfold unionCompounds
  induction b generalizing a with
  | nil => rfl
  | cons y b ih =>
    rw [List.foldl_cons, ih, List.filter_cons]
    by_cases hp : p y = true <;> by_cases hy : y ∈ a <;> simp [hp, hy]

theorem unionCompounds_eq_self (h : ∀ x ∈ b, x ∈ a) : unionCompounds a b = a := by
  rw [unionCompounds_eq, List.filter_eq_nil_iff.2 (by simpa using h)]
  exact List.append_nil a

theorem unionCompounds_assoc (a b c : Compound) :
    unionCompounds (unionCompounds a b) c = unionCompounds a (unionCompounds b c) := by
  induction c generalizing b with
  | nil => rfl
  | cons y c ih =>
    have hone : unionCompounds (unionCompounds a b) [y] = unionCompounds a (unionCompounds b [y]) := by
      by_cases hy : y ∈ b
      · rw [unionCompounds_eq_self (a := b) (by simpa using hy), unionCompounds_eq_self]
        simpa using mem_unionCompounds.2 (.inr hy)
      · have hnew : unionCompounds b [y] = b ++ [y] := if_neg hy
        rw [hnew, unionCompounds_append]
    rw [← List.singleton_append, unionCompounds_append, unionCompounds_append, hone, ih]

def Compound.PseudoElementsLast (a : Compound) : Prop :=
  a.Pairwise fun x y => x.isPseudoElement = true → y.isPseudoElement = true

theorem pseudoElementsLast_mergeCompounds (a b : Compound) :
    (mergeCompounds a b).PseudoElementsLast := by
  refine List.pairwise_append.2 ⟨?_, ?_, ?_⟩
  · exact List.pairwise_of_forall_mem_list (by simp +contextual)
  · exact List.pairwise_of_forall_mem_list (by simp +contextual)
  · simp +contextual

theorem Compound.PseudoElementsLast.eq_self (h : a.PseudoElementsLast) :
    a.filter (!·.isPseudoElement) ++ a.filter Simple.isPseudoElement = a := by
  induction a with
  | nil => rfl
  | cons x a ih =>
    obtain ⟨hx, ha⟩ := List.pairwise_cons.1 h
    cases hp : x.isPseudoElement with
    | false => simpa [hp] using ih ha
    | true =>
      have hall : ∀ y ∈ a, y.isPseudoElement = true := fun y hy => hx y hy hp
      rw [List.filter_eq_nil_iff.2 (by simpa [hp] using hall), List.nil_append,
        List.filter_eq_self.2 (by simpa [hp] using hall)]

theorem filter_mergeCompounds (isLast : Bool) (a b : Compound) :
    (mergeCompounds a b).filter (·.isPseudoElement == isLast)
      = (unionCompounds a b).filter (·.isPseudoElement == isLast) := by
  cases isLast <;> simp [mergeCompounds]

theorem mergeCompounds_eq (a b : Compound) : mergeCompounds a b
    = (unionCompounds a b).filter (·.isPseudoElement == false)
      ++ (unionCompounds a b).filter (·.isPseudoElement == true) := by
  simp [mergeCompounds]

/-- **Merging compounds is an ordered union.**  A merged compound has the conditions of both, the
pseudo-elements last, and among the conditions of either kind those of `a` come first, in their order,
followed by those of `b` that are not in `a`, each once.  How three compounds are bracketed makes no
difference, and a compound merged with itself stays as it is if its pseudo-elements are last, and only
then. -/
theorem mergeCompounds_orderedUnion (a b c : Compound) :
    (∀ x, x ∈ mergeCompounds a b ↔ x ∈ a ∨ x ∈ b) ∧
      (mergeCompounds a b).PseudoElementsLast ∧
      (∀ isLast : Bool, (mergeCompounds a b).filter (·.isPseudoElement == isLast)
        = (a ++ (b.filter (· ∉ a)).eraseDups).filter (·.isPseudoElement == isLast)) ∧
      mergeCompounds (mergeCompounds a b) c = mergeCompounds a (mergeCompounds b c) ∧
      (mergeCompounds a a = a ↔ a.PseudoElementsLast) := by
  refine ⟨fun x => mem_mergeCompounds, pseudoElementsLast_mergeCompounds a b, fun isLast => ?_, ?_, ?_⟩
  · rw [filter_mergeCompounds, unionCompounds_eq]
  · -- conditions of one kind are merged as if there were no others
    have hkind : ∀ p : Bool, (unionCompounds (mergeCompounds a b) c).filter (·.isPseudoElement == p)
        = (unionCompounds a (mergeCompounds b c)).filter (·.isPseudoElement == p) := by
      intro p
      rw [filter_unionCompounds, filter_mergeCompounds, ← filter_unionCompounds, unionCompounds_assoc,
        filter_unionCompounds, ← filter_mergeCompounds, ← filter_unionCompounds]
    rw [mergeCompounds_eq, hkind, hkind, ← mergeCompounds_eq]
  · have hself : unionCompounds a a = a := unionCompounds_eq_self fun _ hx => hx
    constructor
    · intro h
      rw [← h]
      exact pseudoElementsLast_mergeCompounds a a
    · intro h
      rw [mergeCompounds, hself]
      exact h.eq_self

/-! ## What a merged selector matches -/

/-- **A merged compound asks for what both compounds ask for.** -/
theorem holds_mergeCompounds :
    (mergeCompounds a b).Holds means e ↔ a.Holds means e ∧ b.Holds means e := by
  unfold Compound.Holds
  simp only [mem_mergeCompounds, or_imp, forall_and]

theorem matches_joinContexts (a b : Compound) :
    (joinContexts (.single a) (.single b)).Matches root means
      = fun x => a.Holds means x ∧ b.Holds means x := by
  have hsingle : joinContexts (.single a) (.single b) = .single (mergeCompounds a b) := rfl
  rw [hsingle, matches_single]
  exact funext fun _ => propext holds_mergeCompounds

theorem matches_concat (a b : Compound) (k : Combinator) :
    ((single a).concat k (.single b)).Matches root means
      = fun x => b.Holds means x ∧ Reaches root k (a.Holds means) x := by
  have hextended : (single a).concat k (.single b) = (single a).extended k b := rfl
  rw [hextended, matches_extended, matches_single]

theorem Combinator.sameAxis_of_ne (hne : k₁ ≠ k₂) (haxis : k₁.isHorizontal = k₂.isHorizontal) :
    k₁.isImmediate = true ∧ SameAxis k₁ k₂ ∨ k₁.isImmediate = false ∧ SameAxis k₂ k₁ := by
  cases k₁ <;> cases k₂ <;> simp_all [SameAxis, isHorizontal, isImmediate]

/-- **Two compounds before the same key**: the merged selectors match the elements that are reached
from both. -/
theorem matches_mergeAt {key : Compound} :
    (∃ s ∈ mergeAt key (.single a) k₁ (.single b) k₂, s.Matches root means e) ↔
      key.Holds means e ∧ Reaches root k₁ (a.Holds means) e ∧ Reaches root k₂ (b.Holds means) e := by
  unfold mergeAt
  by_cases heq : k₁ = k₂
  · subst heq
    cases himmediate : k₁.isImmediate with
    | true =>
      rw [reaches_and_immediate himmediate]
      simp [matches_extended, matches_joinContexts]
    | false =>
      rw [reaches_and_leap himmediate]
      simp [matches_extended, matches_joinContexts, matches_concat, and_or_left]
  · rw [if_neg heq]
    by_cases hcross : (k₁.isHorizontal && k₂.isVertical) = true
    · rw [if_pos hcross]
      rw [Bool.and_eq_true] at hcross
      rw [reaches_and_crossing hcross.1 hcross.2]
      simp [matches_extended, matches_concat]
    rw [if_neg hcross]
    by_cases hcross' : (k₁.isVertical && k₂.isHorizontal) = true
    · rw [if_pos hcross']
      rw [Bool.and_eq_true] at hcross'
      rw [and_comm (a := Reaches root k₁ _ e), reaches_and_crossing hcross'.2 hcross'.1]
      simp [matches_extended, matches_concat]
    rw [if_neg hcross']
    have haxis : k₁.isHorizontal = k₂.isHorizontal := by
      cases k₁ <;> cases k₂ <;> simp_all [Combinator.isHorizontal, Combinator.isVertical]
    rcases Combinator.sameAxis_of_ne heq haxis with ⟨himmediate, hnear⟩ | ⟨himmediate, hnear⟩
    · rw [reaches_and_near hnear]
      simp [matches_extended, matches_joinContexts, matches_concat, himmediate, and_or_left]
    · rw [and_comm (a := Reaches root k₁ _ e), reaches_and_near hnear]
      simp [matches_extended, matches_joinContexts, matches_concat, himmediate, and_or_left]

theorem matches_join {s₁ s₂ : Selector} (h₁ : s₁.context.length ≤ 1) (h₂ : s₂.context.length ≤ 1) :
    (∃ s ∈ join s₁ s₂, s.Matches root means e)
      ↔ s₁.Matches root means e ∧ s₂.Matches root means e := by
  obtain ⟨key₁, rfl | ⟨a, k₁, rfl⟩⟩ := cases_of_length_le_one h₁ <;>
    obtain ⟨key₂, rfl | ⟨b, k₂, rfl⟩⟩ := cases_of_length_le_one h₂
  · have hjoin : join (.single key₁) (.single key₂) = [.single (mergeCompounds key₁ key₂)] := rfl
    rw [hjoin]
    simp [matches_single, holds_mergeCompounds]
  · have hjoin : join (.single key₁) ((single b).extended k₂ key₂)
        = [(single b).extended k₂ (mergeCompounds key₁ key₂)] := rfl
    rw [hjoin]
    simp [matches_single, matches_extended, holds_mergeCompounds, and_assoc]
  · have hjoin : join ((single a).extended k₁ key₁) (.single key₂)
        = [(single a).extended k₁ (mergeCompounds key₁ key₂)] := rfl
    rw [hjoin]
    simp [matches_single, matches_extended, holds_mergeCompounds, and_right_comm]
  · have hjoin : join ((single a).extended k₁ key₁) ((single b).extended k₂ key₂)
        = mergeAt (mergeCompounds key₁ key₂) (.single a) k₁ (.single b) k₂ := rfl
    rw [hjoin, matches_mergeAt, holds_mergeCompounds, matches_extended,
      matches_extended, matches_single, matches_single]
    exact and_and_and_comm

/-- The keys of two selectors ask for different pseudo-elements. -/
def PseudosDiffer (a b : Compound) : Prop :=
  ∃ p q, a.pseudoElement? = some p ∧ b.pseudoElement? = some q ∧ p ≠ q

theorem PseudosDiffer.symm {a b : Compound} (h : PseudosDiffer a b) : PseudosDiffer b a := by
  obtain ⟨p, q, hp, hq, hne⟩ := h
  exact ⟨q, p, hq, hp, hne.symm⟩

section

variable {s₁ s₂ : Selector}

/-- No element is two pseudo-elements at once. -/
theorem PseudosDiffer.not_matches (h : PseudosDiffer s₁.key s₂.key)
    (hexclude : PseudoElementsExclude root means) (he : root.Has e) :
    ¬(s₁.Matches root means e ∧ s₂.Matches root means e) := by
  rintro ⟨hm₁, hm₂⟩
  obtain ⟨p, q, hp, hq, hne⟩ := h
  have hpe := hm₁.1 p (List.mem_of_find?_eq_some hp)
  have hqe := hm₂.1 q (List.mem_of_find?_eq_some hq)
  exact hne (hexclude e he p q (List.find?_some hp) (List.find?_some hq) hpe hqe)

theorem mergeSelectors_ok (h : s₁.context.length ≤ 1 ∨ s₂.context.length ≤ 1) :
    ∃ merged, mergeSelectors s₁ s₂ = .ok merged ∧
      (PseudosDiffer s₁.key s₂.key ∧ merged = [] ∨
        ¬PseudosDiffer s₁.key s₂.key ∧ merged = join s₁ s₂) := by
  have hmergeable : (decide (1 < s₁.context.length) && decide (1 < s₂.context.length)) = false := by
    rcases h with h | h <;> simp [Nat.not_lt.2 h]
  unfold mergeSelectors
  rw [hmergeable, if_neg Bool.false_ne_true]
  split
  · rename_i p q hp hq
    split
    · rename_i heq
      refine ⟨_, rfl, .inr ⟨?_, rfl⟩⟩
      rintro ⟨p', q', hp', hq', hne⟩
      obtain rfl := Option.some.inj (hp.symm.trans hp')
      obtain rfl := Option.some.inj (hq.symm.trans hq')
      exact hne heq
    · rename_i hne
      exact ⟨_, rfl, .inl ⟨⟨p, q, hp, hq, hne⟩, rfl⟩⟩
  · rename_i hnone
    refine ⟨_, rfl, .inr ⟨?_, rfl⟩⟩
    rintro ⟨p, q, hp, hq, -⟩
    exact hnone p q hp hq

end

/-- **Selectors with at most one combinator each are merged exactly**: whatever the conditions mean,
an element of a document is matched by one of the merged selectors if and only if it is matched by
both selectors. -/
theorem mergeSelectors_exact {s₁ s₂ : Selector} (h₁ : s₁.context.length ≤ 1)
    (h₂ : s₂.context.length ≤ 1) : ∃ merged, mergeSelectors s₁ s₂ = .ok merged ∧
      ∀ (root : Element) (means : Simple → Address → Prop), PseudoElementsExclude root means →
        ∀ e, root.Has e → ((∃ s ∈ merged, s.Matches root means e)
          ↔ s₁.Matches root means e ∧ s₂.Matches root means e) := by
  obtain ⟨merged, hmerged, hcases⟩ := @mergeSelectors_ok s₁ s₂ (.inl h₁)
  refine ⟨merged, hmerged, fun root means hexclude e he => ?_⟩
  rcases hcases with ⟨hdiffer, rfl⟩ | ⟨-, rfl⟩
  · refine iff_of_false ?_ (hdiffer.not_matches hexclude he)
    rintro ⟨s, hs, -⟩
    cases hs
  · exact matches_join h₁ h₂

/-- `.a > .x::before` and `.b .x`, for an element in one of class `a` in one of class `b`. -/
theorem mergeSelectors_exact_nested :
    ∃ merged, mergeSelectors
        ⟨[([.className "a"], .child)], [.className "x", .pseudoElement "before" none]⟩
        ⟨[([.className "b"], .descendant)], [.className "x"]⟩ = .ok merged ∧
      ∃ s ∈ merged, s.Matches (.mk [.mk [.mk []]])
        (fun x e => (x, e) ∈ [(.className "b", []), (.className "a", [0]), (.className "x", [0, 0]),
          (.pseudoElement "before" none, [0, 0])]) [0, 0] := by
  obtain ⟨merged, hmerged, hexact⟩ := @mergeSelectors_exact
    ⟨[([.className "a"], .child)], [.className "x", .pseudoElement "before" none]⟩
    ⟨[([.className "b"], .descendant)], [.className "x"]⟩ (by decide) (by decide)
  refine ⟨merged, hmerged, (hexact _ _ ?_ [0, 0] (by decide)).2 ⟨?_, ?_⟩⟩
  · intro a ha x y hx hy hxa hya
    have honly : ∀ {x : Simple}, x.isPseudoElement = true → (x, a) ∈ [(.className "b", []),
        (.className "a", [0]), (.className "x", [0, 0]), (.pseudoElement "before" none, [0, 0])] →
        x = .pseudoElement "before" none := by
      intro x hx hxa
      cases x with
      | pseudoElement => simp_all
      | _ => cases hx
    rw [honly hx hxa, honly hy hya]
  · exact ⟨by simp [Compound.Holds], [0], by decide, ⟨0, rfl⟩, by simp [Compound.Holds], trivial⟩
  · exact ⟨by simp [Compound.Holds], [], by decide, ⟨0, [0], rfl, List.nil_suffix⟩,
      by simp [Compound.Holds], trivial⟩

end StyleBlocks
