import StyleBlocks.Selector

/-!
# Elements that selectors match

A document is a tree of elements, and an element is addressed by the numbers of the elements on the
way to it.  What a condition says of an element is left open: a selector is matched under any
reading of its conditions.

* `reaches_and_immediate`, `reaches_and_leap`, `reaches_and_crossing`, `reaches_and_near`: **two
  elements that an element is reached from stand on one line**, so one of them is reached through
  the other.
-/

namespace StyleBlocks

open List Combinator

variable {h k leap step v : Combinator}

/-! ## Documents -/

/-- An element with the elements inside it, in their order. -/
inductive Element where
  | mk (children : List Element)

/-- The numbers of the elements on the way to an element, each among its siblings, the innermost
first.  The outermost element has the empty address. -/
abbrev Address := List Nat

namespace Element

def children : Element → List Element
  | mk children => children

def at? (root : Element) : Address → Option Element
  | [] => some root
  | i :: a => (root.at? a).bind fun e => e.children[i]?

def Has (root : Element) (a : Address) : Prop :=
  (root.at? a).isSome = true

instance (root : Element) (a : Address) : Decidable (root.Has a) :=
  inferInstanceAs (Decidable (_ = true))

end Element

/-- How the element at the first address stands to the one at the second. -/
def Combinator.Relates : Combinator → Address → Address → Prop
  | child, a, b => ∃ i, b = i :: a
  | descendant, a, b => ∃ i c, b = i :: c ∧ a <:+ c
  | adjacent, a, b => ∃ i c, a = i :: c ∧ b = (i + 1) :: c
  | sibling, a, b => ∃ i j c, i < j ∧ a = i :: c ∧ b = j :: c

/-! ## Matching -/

section

variable (root : Element) (means : Simple → Address → Prop)

def Compound.Holds (c : Compound) (e : Address) : Prop :=
  ∀ x ∈ c, means x e

/-- From an element of which `p` holds the combinator leads to the element `e`. -/
def Reaches (k : Combinator) (p : Address → Prop) (e : Address) : Prop :=
  ∃ a, root.Has a ∧ k.Relates a e ∧ p a

/-- A context, its innermost compound first, leads to the element. -/
def LeadsTo : List (Compound × Combinator) → Address → Prop
  | [], _ => True
  | (c, k) :: outer, e => Reaches root k (fun a => c.Holds means a ∧ LeadsTo outer a) e

/-- The selector matches the element, where `means` says of which elements a condition holds. -/
def Selector.Matches (s : Selector) (e : Address) : Prop :=
  s.key.Holds means e ∧ LeadsTo root means s.context.reverse e

/-- No element is two pseudo-elements at once. -/
def PseudoElementsExclude : Prop :=
  ∀ a, root.Has a → ∀ x y : Simple, x.isPseudoElement = true → y.isPseudoElement = true →
    means x a → means y a → x = y

end

namespace Selector

variable {root : Element} {means : Simple → Address → Prop}

theorem matches_single (key : Compound) : (single key).Matches root means = key.Holds means :=
  funext fun _ => propext (and_iff_left trivial)

theorem matches_extended (s : Selector) (k : Combinator) (key : Compound) :
    (s.extended k key).Matches root means
      = fun e => key.Holds means e ∧ Reaches root k (s.Matches root means) e := by
  funext e
  unfold Matches extended
  rw [reverse_append, reverse_singleton, singleton_append, LeadsTo]

theorem cases_of_length_le_one {s : Selector} (h : s.context.length ≤ 1) :
    ∃ key, s = single key ∨ ∃ c k, s = (single c).extended k key := by
  obtain ⟨context, key⟩ := s
  rcases context with _ | ⟨⟨c, k⟩, _ | ⟨p, context⟩⟩
  · exact ⟨key, .inl rfl⟩
  · exact ⟨key, .inr ⟨c, k, rfl⟩⟩
  · simp only [length_cons] at h
    omega

end Selector

/-! ## Elements on one line -/

namespace Combinator

variable {a b e : Address}

theorem Relates.unique (hk : k.isImmediate = true) (ha : k.Relates a e) (hb : k.Relates b e) :
    a = b := by
  cases k with
  | child =>
    obtain ⟨i, rfl⟩ := ha
    obtain ⟨j, h⟩ := hb
    exact (cons.inj h).2
  | adjacent =>
    obtain ⟨i, c, rfl, rfl⟩ := ha
    obtain ⟨j, d, rfl, h⟩ := hb
    obtain ⟨hij, rfl⟩ := cons.inj h
    rw [Nat.add_right_cancel hij]
  | descendant | sibling => cases hk

theorem Relates.trans (hk : k.isImmediate = false) (ha : k.Relates a b) (hb : k.Relates b e) :
    k.Relates a e := by
  cases k with
  | child | adjacent => cases hk
  | descendant =>
    obtain ⟨i, c, rfl, hac⟩ := ha
    obtain ⟨j, d, rfl, hbd⟩ := hb
    exact ⟨j, d, rfl, (hac.trans (suffix_cons i c)).trans hbd⟩
  | sibling =>
    obtain ⟨i, j, c, hij, rfl, rfl⟩ := ha
    obtain ⟨j', l, d, hjl, h, rfl⟩ := hb
    obtain ⟨rfl, rfl⟩ := cons.inj h
    exact ⟨i, l, c, Nat.lt_trans hij hjl, rfl, rfl⟩

theorem eq_or_relates_of_suffix (h : a <:+ b) : a = b ∨ descendant.Relates a b := by
  cases b with
  | nil => exact .inl (suffix_nil.1 h)
  | cons i b =>
    rcases suffix_cons_iff.1 h with h | h
    · exact .inl h
    · exact .inr ⟨i, b, rfl, h⟩

theorem Relates.total (hk : k.isImmediate = false) (ha : k.Relates a e) (hb : k.Relates b e) :
    a = b ∨ k.Relates a b ∨ k.Relates b a := by
  cases k with
  | child | adjacent => cases hk
  | descendant =>
    obtain ⟨i, c, rfl, hac⟩ := ha
    obtain ⟨j, d, h, hbd⟩ := hb
    obtain ⟨-, rfl⟩ := List.cons.inj h
    rcases suffix_or_suffix_of_suffix hac hbd with h | h
    · exact (eq_or_relates_of_suffix h).imp_right .inl
    · exact (eq_or_relates_of_suffix h).imp Eq.symm .inr
  | sibling =>
    obtain ⟨i, l, c, hil, rfl, rfl⟩ := ha
    obtain ⟨j, l', d, hjl, rfl, h⟩ := hb
    obtain ⟨-, rfl⟩ := List.cons.inj h
    rcases Nat.lt_trichotomy i j with hij | rfl | hij
    · exact .inr (.inl ⟨i, j, c, hij, rfl, rfl⟩)
    · exact .inl rfl
    · exact .inr (.inr ⟨j, i, c, hij, rfl, rfl⟩)

theorem relates_iff_of_horizontal (hh : h.isHorizontal = true) (hv : v.isVertical = true)
    (hb : h.Relates b e) : v.Relates a e ↔ v.Relates a b := by
  obtain ⟨i, j, c, rfl, rfl⟩ : ∃ i j c, b = i :: c ∧ e = j :: c := by
    cases h with
    | adjacent =>
      obtain ⟨i, c, rfl, rfl⟩ := hb
      exact ⟨i, i + 1, c, rfl, rfl⟩
    | sibling =>
      obtain ⟨i, j, c, -, rfl, rfl⟩ := hb
      exact ⟨i, j, c, rfl, rfl⟩
    | child | descendant => cases hh
  cases v with
  | child => simp [Relates]
  | descendant => simp [Relates, and_assoc]
  | adjacent | sibling => cases hv

/-- The combinators of one axis: `step` leads one step along it, and `leap` any number of steps. -/
def SameAxis (step leap : Combinator) : Prop :=
  step = child ∧ leap = descendant ∨ step = adjacent ∧ leap = sibling

theorem relates_iff_of_step (h : SameAxis step leap) (hb : step.Relates b e) :
    leap.Relates a e ↔ a = b ∨ leap.Relates a b := by
  rcases h with ⟨rfl, rfl⟩ | ⟨rfl, rfl⟩
  · obtain ⟨i, rfl⟩ := hb
    constructor
    · rintro ⟨j, c, heq, hac⟩
      obtain ⟨-, rfl⟩ := List.cons.inj heq
      exact eq_or_relates_of_suffix hac
    · rintro (rfl | ⟨j, c, rfl, hac⟩)
      · exact ⟨i, a, rfl, suffix_refl a⟩
      · exact ⟨i, j :: c, rfl, hac.trans (suffix_cons j c)⟩
  · obtain ⟨i, c, rfl, rfl⟩ := hb
    constructor
    · rintro ⟨j, l, d, hjl, rfl, heq⟩
      obtain ⟨rfl, rfl⟩ := List.cons.inj heq
      rcases Nat.lt_or_eq_of_le (Nat.lt_succ_iff.1 hjl) with hji | rfl
      · exact .inr ⟨j, i, c, hji, rfl, rfl⟩
      · exact .inl rfl
    · rintro (rfl | ⟨j, l, d, hjl, rfl, heq⟩)
      · exact ⟨i, i + 1, c, Nat.lt_succ_self i, rfl, rfl⟩
      · obtain ⟨rfl, rfl⟩ := List.cons.inj heq
        exact ⟨j, i + 1, c, Nat.lt_succ_of_lt hjl, rfl, rfl⟩

end Combinator

section

variable {root : Element} {p q : Address → Prop} {e : Address}

theorem reaches_and_immediate (hk : k.isImmediate = true) :
    Reaches root k p e ∧ Reaches root k q e ↔ Reaches root k (fun a => p a ∧ q a) e := by
  constructor
  · rintro ⟨⟨a, ha, hae, hp⟩, b, -, hbe, hq⟩
    obtain rfl := hae.unique hk hbe
    exact ⟨a, ha, hae, hp, hq⟩
  · rintro ⟨a, ha, hae, hp, hq⟩
    exact ⟨⟨a, ha, hae, hp⟩, a, ha, hae, hq⟩

theorem reaches_and_leap (hk : k.isImmediate = false) :
    Reaches root k p e ∧ Reaches root k q e ↔ Reaches root k (fun a => p a ∧ q a) e ∨
      Reaches root k (fun a => q a ∧ Reaches root k p a) e ∨
      Reaches root k (fun a => p a ∧ Reaches root k q a) e := by
  constructor
  · rintro ⟨⟨a, ha, hae, hp⟩, b, hb, hbe, hq⟩
    rcases hae.total hk hbe with rfl | hab | hba
    · exact .inl ⟨a, ha, hae, hp, hq⟩
    · exact .inr (.inl ⟨b, hb, hbe, hq, a, ha, hab, hp⟩)
    · exact .inr (.inr ⟨a, ha, hae, hp, b, hb, hba, hq⟩)
  · rintro (⟨a, ha, hae, hp, hq⟩ | ⟨b, hb, hbe, hq, a, ha, hab, hp⟩ | ⟨a, ha, hae, hp, b, hb, hba, hq⟩)
    · exact ⟨⟨a, ha, hae, hp⟩, a, ha, hae, hq⟩
    · exact ⟨⟨a, ha, hab.trans hk hbe, hp⟩, b, hb, hbe, hq⟩
    · exact ⟨⟨a, ha, hae, hp⟩, b, hb, hba.trans hk hae, hq⟩

theorem reaches_and_crossing (hh : h.isHorizontal = true) (hv : v.isVertical = true) :
    Reaches root h p e ∧ Reaches root v q e
      ↔ Reaches root h (fun a => p a ∧ Reaches root v q a) e := by
  constructor
  · rintro ⟨⟨a, ha, hae, hp⟩, b, hb, hbe, hq⟩
    exact ⟨a, ha, hae, hp, b, hb, (relates_iff_of_horizontal hh hv hae).1 hbe, hq⟩
  · rintro ⟨a, ha, hae, hp, b, hb, hba, hq⟩
    exact ⟨⟨a, ha, hae, hp⟩, b, hb, (relates_iff_of_horizontal hh hv hae).2 hba, hq⟩

theorem reaches_and_near (h : SameAxis step leap) :
    Reaches root step p e ∧ Reaches root leap q e ↔ Reaches root step (fun a => p a ∧ q a) e ∨
      Reaches root step (fun a => p a ∧ Reaches root leap q a) e := by
  constructor
  · rintro ⟨⟨a, ha, hae, hp⟩, b, hb, hbe, hq⟩
    rcases (relates_iff_of_step h hae).1 hbe with rfl | hba
    · exact .inl ⟨b, ha, hae, hp, hq⟩
    · exact .inr ⟨a, ha, hae, hp, b, hb, hba, hq⟩
  · rintro (⟨a, ha, hae, hp, hq⟩ | ⟨a, ha, hae, hp, b, hb, hba, hq⟩)
    · exact ⟨⟨a, ha, hae, hp⟩, a, ha, (relates_iff_of_step h hae).2 (.inl rfl), hq⟩
    · exact ⟨⟨a, ha, hae, hp⟩, b, hb, (relates_iff_of_step h hae).2 (.inr hba), hq⟩

end

end StyleBlocks
