import StyleBlocks.Proofs.Selector.Matching

/-!
# A document for a context

A context and a compound behind it are laid out in a document: every compound has an element of its
own, which the combinators lead to from the one before, and a condition holds only where a compound
asks for it.  The context leads to the last of these elements, and what else leads there must be
found in the context.

Main result: `length_le_of_leadsTo`.
-/

namespace StyleBlocks

open List

variable {a : Address} {k : Combinator}

/-! ## Elements before an element -/

/-- The number of steps to an element, where all siblings before it and before the elements around
it are counted. -/
def Address.weight : Address → Nat
  | [] => 0
  | i :: a => i + weight a + 1

namespace Address

theorem weight_cons (i : Nat) (a : Address) : weight (i :: a) = i + weight a + 1 := rfl

theorem weight_le_of_suffix {b : Address} (h : a <:+ b) : a.weight ≤ b.weight := by
  obtain ⟨front, rfl⟩ := h
  induction front with
  | nil => exact Nat.le_refl _
  | cons i front ih =>
    rw [cons_append, weight_cons]
    omega

theorem length_le_weight (a : Address) : a.length ≤ a.weight := by
  induction a with
  | nil => exact Nat.le_refl _
  | cons i a ih =>
    rw [length_cons, weight_cons]
    omega

theorem lt_weight_of_mem {i : Nat} (h : i ∈ a) : i < a.weight := by
  induction a with
  | nil => cases h
  | cons j a ih =>
    rw [weight_cons]
    rcases mem_cons.1 h with rfl | h
    · omega
    · have := ih h
      omega

end Address

theorem Combinator.Relates.weight_lt {b : Address} (h : k.Relates a b) : a.weight < b.weight := by
  cases k with
  | child =>
    obtain ⟨i, rfl⟩ := h
    rw [Address.weight_cons]
    omega
  | descendant =>
    obtain ⟨i, c, rfl, hac⟩ := h
    have := Address.weight_le_of_suffix hac
    rw [Address.weight_cons]
    omega
  | adjacent =>
    obtain ⟨i, c, rfl, rfl⟩ := h
    rw [Address.weight_cons, Address.weight_cons]
    omega
  | sibling =>
    obtain ⟨i, j, c, hij, rfl, rfl⟩ := h
    rw [Address.weight_cons, Address.weight_cons]
    omega

/-- What leads to an element depends only on what holds of the elements before it. -/
theorem LeadsTo.of_before {root : Element} {means means' : Simple → Address → Prop}
    {context : List (Compound × Combinator)} {e : Address} (h : LeadsTo root means context e)
    (hagree : ∀ x a, a.weight < e.weight → means x a → means' x a) :
    LeadsTo root means' context e := by
  induction context generalizing e with
  | nil => trivial
  | cons p outer ih =>
    obtain ⟨a, ha, hae, hholds, hleads⟩ := h
    have hlt := hae.weight_lt
    exact ⟨a, ha, hae, fun x hx => hagree x a hlt (hholds x hx),
      ih hleads fun x b hb => hagree x b (Nat.lt_trans hb hlt)⟩

/-! ## Documents that are large enough -/

/-- The document in which every element above the lowest level has `width` elements in it. -/
def Element.full (width : Nat) : Nat → Element
  | 0 => .mk []
  | depth + 1 => .mk (List.replicate width (full width depth))

theorem Element.at?_full {width : Nat} : ∀ {depth : Nat} {a : Address}, a.length ≤ depth →
    (∀ i ∈ a, i < width) → (full width depth).at? a = some (full width (depth - a.length)) := by
  intro depth a
  induction a with
  | nil => exact fun _ _ => rfl
  | cons i a ih =>
    intro hlength hwidth
    rw [length_cons] at hlength
    rw [at?, ih (by omega) fun j hj => hwidth j (mem_cons_of_mem i hj), Option.bind_some]
    obtain ⟨rest, hrest⟩ : ∃ rest, depth - a.length = rest + 1 := ⟨depth - a.length - 1, by omega⟩
    have hi := hwidth i mem_cons_self
    rw [hrest, full, children, getElem?_replicate, if_pos hi, length_cons]
    congr 2
    omega

theorem Element.has_full {n : Nat} (h : a.weight ≤ n) : (full n n).Has a := by
  have hat : (full n n).at? a = some (full n (n - a.length)) :=
    at?_full (Nat.le_trans a.length_le_weight h)
      fun i hi => Nat.lt_of_lt_of_le (Address.lt_weight_of_mem hi) h
  rw [Has, hat]
  rfl

/-! ## The elements of a context -/

/-- The element that a combinator leads to: the first one in an element, or the next one behind it.
`gap` stands between an element and what is somewhere inside it. -/
def Combinator.next (gap : Address) : Combinator → Address → Address
  | child, a => 0 :: a
  | descendant, a => 0 :: (gap ++ a)
  | adjacent, a => a.modifyHead (· + 1)
  | sibling, a => a.modifyHead (· + 1)

/-- Where a context, its innermost compound first, leads in its own document. -/
def standpoint (gap : Address) : List (Compound × Combinator) → Address
  | [] => [0]
  | (_, k) :: outer => k.next gap (standpoint gap outer)

variable {gap : Address}

namespace Combinator

theorem next_ne_nil (h : a ≠ []) : k.next gap a ≠ [] := by
  cases k with
  | child | descendant => exact cons_ne_nil _ _
  | adjacent | sibling => simpa [next] using h

theorem next_of_isHorizontal (hk : k.isHorizontal = true) (i : Nat) (a : Address) :
    k.next gap (i :: a) = (i + 1) :: a := by
  cases k with
  | adjacent | sibling => rfl
  | child | descendant => cases hk

theorem next_of_isVertical (hk : k.isVertical = true) (a : Address) : k.next [] a = 0 :: a := by
  cases k with
  | child | descendant => rfl
  | adjacent | sibling => cases hk

theorem relates_next (h : a ≠ []) : k.Relates a (k.next gap a) := by
  obtain ⟨i, c, rfl⟩ := exists_cons_of_ne_nil h
  cases k with
  | child => exact ⟨0, rfl⟩
  | descendant => exact ⟨0, gap ++ i :: c, rfl, suffix_append _ _⟩
  | adjacent => exact ⟨i, c, rfl, rfl⟩
  | sibling => exact ⟨i, i + 1, c, Nat.lt_succ_self i, rfl, rfl⟩

theorem adjacent_relates_next (hk : k.isHorizontal = true) (h : a ≠ []) :
    adjacent.Relates a (k.next gap a) := by
  obtain ⟨i, c, rfl⟩ := exists_cons_of_ne_nil h
  exact ⟨i, c, rfl, next_of_isHorizontal hk i c⟩

end Combinator

theorem standpoint_ne_nil (context : List (Compound × Combinator)) :
    standpoint gap context ≠ [] := by
  induction context with
  | nil => exact cons_ne_nil _ _
  | cons p outer ih => exact Combinator.next_ne_nil ih

theorem relates_standpoint (c : Compound) (k : Combinator) (outer : List (Compound × Combinator)) :
    k.Relates (standpoint gap outer) (standpoint gap ((c, k) :: outer)) :=
  Combinator.relates_next (standpoint_ne_nil outer)

theorem weight_standpoint_lt (p : Compound × Combinator) (outer : List (Compound × Combinator)) :
    (standpoint gap outer).weight < (standpoint gap (p :: outer)).weight :=
  (relates_standpoint p.1 p.2 outer).weight_lt

/-- What holds in the document of a context with the compound `key` behind it: the conditions of
each compound hold of its element. -/
def Depicts (gap : Address) : Compound → List (Compound × Combinator) → Simple → Address → Prop
  | key, [], x, a => x ∈ key ∧ a = standpoint gap []
  | key, (c, k) :: outer, x, a =>
    x ∈ key ∧ a = standpoint gap ((c, k) :: outer) ∨ Depicts gap c outer x a

namespace Depicts

variable {key c : Compound} {context outer : List (Compound × Combinator)} {x : Simple}

theorem of_mem (h : x ∈ key) : Depicts gap key context x (standpoint gap context) := by
  cases context with
  | nil => exact ⟨h, rfl⟩
  | cons p outer => exact .inl ⟨h, rfl⟩

theorem weight_le (h : Depicts gap key context x a) :
    a.weight ≤ (standpoint gap context).weight := by
  induction context generalizing key with
  | nil => exact Nat.le_of_eq (congrArg Address.weight h.2)
  | cons p outer ih =>
    rcases h with ⟨-, rfl⟩ | h
    · exact Nat.le_refl _
    · exact Nat.le_trans (ih h) (Nat.le_of_lt (weight_standpoint_lt p outer))

theorem of_cons (h : Depicts gap key ((c, k) :: outer) x a)
    (ha : a.weight < (standpoint gap ((c, k) :: outer)).weight) : Depicts gap c outer x a := by
  rcases h with ⟨-, rfl⟩ | h
  · exact absurd ha (Nat.lt_irrefl _)
  · exact h

theorem mem_key (h : Depicts gap key context x (standpoint gap context)) : x ∈ key := by
  cases context with
  | nil => exact h.1
  | cons p outer =>
    rcases h with ⟨hx, -⟩ | h
    · exact hx
    · exact absurd h.weight_le (Nat.not_le.2 (weight_standpoint_lt p outer))

theorem weight_lt_or_eq (h : Depicts gap key context x a) :
    a.weight < (standpoint gap context).weight ∨ a = standpoint gap context := by
  cases context with
  | nil => exact .inr h.2
  | cons p outer =>
    rcases h with ⟨-, rfl⟩ | h
    · exact .inr rfl
    · exact .inl (Nat.lt_of_le_of_lt h.weight_le (weight_standpoint_lt p outer))

/-- Where only the compound behind the context asks for a kind of conditions, such conditions hold
only where the context leads. -/
theorem mem_key_of_forall {p : Simple → Bool} (hp : ∀ q ∈ context, ∀ y ∈ q.1, p y = false)
    (h : Depicts gap key context x a) (hx : p x = true) : x ∈ key := by
  induction context generalizing key with
  | nil => exact h.1
  | cons q outer ih =>
    rcases h with ⟨hmem, -⟩ | h
    · exact hmem
    · have hmem := ih (fun r hr => hp r (mem_cons_of_mem q hr)) h
      rw [hp q mem_cons_self x hmem] at hx
      cases hx

end Depicts

/-! ## What leads to the last element -/

section

variable {root : Element} {key d : Compound} {context D outer : List (Compound × Combinator)}

/-- **The context leads to its last element**, in every document that has its elements. -/
theorem leadsTo_standpoint
    (hroot : ∀ a : Address, a.weight ≤ (standpoint gap context).weight → root.Has a) :
    LeadsTo root (Depicts gap key context) context (standpoint gap context) := by
  induction context generalizing key with
  | nil => trivial
  | cons p outer ih =>
    have hle : (standpoint gap outer).weight ≤ (standpoint gap (p :: outer)).weight :=
      Nat.le_of_lt (weight_standpoint_lt p outer)
    have hinner : LeadsTo root (Depicts gap p.1 outer) outer (standpoint gap outer) :=
      ih fun a ha => hroot a (Nat.le_trans ha hle)
    refine ⟨standpoint gap outer, hroot _ hle, relates_standpoint p.1 p.2 outer, ?_, ?_⟩
    · exact fun x hx => .inr (.of_mem hx)
    · exact hinner.of_before fun x a _ hx => .inr hx

/-- Conditions that hold together of an element before the last one are those of one compound of the
context. -/
theorem exists_of_holds (hd : d ≠ []) (h : d.Holds (Depicts gap key context) a)
    (ha : a.weight < (standpoint gap context).weight) :
    ∃ front c j outer, context = front ++ (c, j) :: outer ∧ d ⊆ c ∧ a = standpoint gap outer := by
  obtain ⟨x, hx⟩ := exists_mem_of_ne_nil d hd
  induction context generalizing key with
  | nil =>
    obtain ⟨-, rfl⟩ := h x hx
    exact absurd ha (Nat.lt_irrefl _)
  | cons p outer ih =>
    have hinner : d.Holds (Depicts gap p.1 outer) a := fun y hy => (h y hy).of_cons ha
    rcases (hinner x hx).weight_lt_or_eq with hlt | rfl
    · obtain ⟨front, c, j, outer', rfl, hsubset, rfl⟩ := ih hinner hlt
      exact ⟨p :: front, c, j, outer', rfl, hsubset, rfl⟩
    · exact ⟨[], p.1, p.2, outer, rfl, fun y hy => (hinner y hy).mem_key, rfl⟩

/-- Before an element of the context stands what the context up to there depicts. -/
theorem Depicts.of_append {front : List (Compound × Combinator)} {c : Compound} {j : Combinator}
    {x : Simple} (h : Depicts gap key (front ++ (c, j) :: outer) x a)
    (ha : a.weight < (standpoint gap outer).weight) : Depicts gap c outer x a := by
  induction front generalizing key with
  | nil => exact h.of_cons (Nat.lt_trans ha (weight_standpoint_lt (c, j) outer))
  | cons p front ih =>
    have hle : ∀ l : List (Compound × Combinator),
        (standpoint gap outer).weight ≤ (standpoint gap (l ++ (c, j) :: outer)).weight := by
      intro l
      induction l with
      | nil => exact Nat.le_of_lt (weight_standpoint_lt (c, j) outer)
      | cons q l ih => exact Nat.le_trans ih (Nat.le_of_lt (weight_standpoint_lt q _))
    exact ih (h.of_cons (Nat.lt_of_lt_of_le ha (hle (p :: front))))

/-- **What leads to the last element ends with a compound that asks for no more than one of the
context**, and the rest leads to the element of that one. -/
theorem exists_of_leadsTo_cons (hd : d ≠ [])
    (h : LeadsTo root (Depicts gap key context) ((d, k) :: D) (standpoint gap context)) :
    ∃ front c j outer, context = front ++ (c, j) :: outer ∧ d ⊆ c ∧
      k.Relates (standpoint gap outer) (standpoint gap context) ∧
      LeadsTo root (Depicts gap c outer) D (standpoint gap outer) := by
  obtain ⟨a, -, hrelates, hholds, hleads⟩ := h
  obtain ⟨front, c, j, outer, rfl, hsubset, rfl⟩ := exists_of_holds hd hholds hrelates.weight_lt
  exact ⟨front, c, j, outer, rfl, hsubset, hrelates,
    hleads.of_before fun x b hb hx => hx.of_append hb⟩

/-- **Nothing longer than the context leads to its last element.** -/
theorem length_le_of_leadsTo (hD : ∀ p ∈ D, p.1 ≠ [])
    (h : LeadsTo root (Depicts gap key context) D (standpoint gap context)) :
    D.length ≤ context.length := by
  induction D generalizing key context with
  | nil => exact Nat.zero_le _
  | cons p D ih =>
    obtain ⟨front, c, j, outer, rfl, -, -, hleads⟩ :=
      exists_of_leadsTo_cons (hD p mem_cons_self) h
    have := ih (fun q hq => hD q (mem_cons_of_mem p hq)) hleads
    rw [length_append, length_cons, length_cons]
    omega

theorem leadsTo_cons_of_length {c : Compound} {j : Combinator} (hd : d ≠ [])
    (hD : ∀ p ∈ D, p.1 ≠ []) (hlength : outer.length ≤ D.length)
    (h : LeadsTo root (Depicts gap key ((c, j) :: outer)) ((d, k) :: D)
      (standpoint gap ((c, j) :: outer))) :
    d ⊆ c ∧ k.Relates (standpoint gap outer) (standpoint gap ((c, j) :: outer)) ∧
      LeadsTo root (Depicts gap c outer) D (standpoint gap outer) := by
  obtain ⟨front, c', j', outer', heq, hsubset, hrelates, hleads⟩ := exists_of_leadsTo_cons hd h
  have hle := length_le_of_leadsTo hD hleads
  cases front with
  | nil =>
    cases heq
    exact ⟨hsubset, hrelates, hleads⟩
  | cons p front =>
    -- too few compounds of the context would be left for the rest
    have hcount := congrArg length heq
    rw [cons_append, length_cons, length_cons, length_append, length_cons] at hcount
    omega

end

end StyleBlocks
