import StyleBlocks.BlockError

/-!
# Merging selectors

Two selectors for the same element are merged into selectors for the elements that both select.
The conditions of the two keys are put together; where both selectors have a context, the two
contexts are put together at the same element or one behind the other, as the combinators allow.
-/

namespace StyleBlocks

/-- The conditions of `a`, then those of `b` that `a` does not have. -/
def unionCompounds (a b : Compound) : Compound :=
  b.foldl (fun merged simple => if simple ∈ merged then merged else merged ++ [simple]) a

/-- The conditions of both compounds, pseudo-elements last. -/
def mergeCompounds (a b : Compound) : Compound :=
  let all := unionCompounds a b
  all.filter (!·.isPseudoElement) ++ all.filter Simple.isPseudoElement

/-- Two contexts at the same element.  At most one of them has a context of its own. -/
def joinContexts (a b : Selector) : Selector :=
  ⟨if a.context.isEmpty then b.context else a.context, mergeCompounds a.key b.key⟩

/-- The selectors with the contexts `c₁` and `c₂` before the same key. -/
def mergeAt (key : Compound) (c₁ : Selector) (k₁ : Combinator) (c₂ : Selector) (k₂ : Combinator) :
    List Selector :=
  if k₁ = k₂ then
    let same := (joinContexts c₁ c₂).extended k₁ key
    if k₁.isImmediate then [same]
    else [same, (c₁.concat k₁ c₂).extended k₂ key, (c₂.concat k₂ c₁).extended k₁ key]
  else if k₁.isHorizontal && k₂.isVertical then [(c₂.concat k₂ c₁).extended k₁ key]
  else if k₁.isVertical && k₂.isHorizontal then [(c₁.concat k₁ c₂).extended k₂ key]
  else
    let (near, step, far, leap) := if k₁.isImmediate then (c₁, k₁, c₂, k₂) else (c₂, k₂, c₁, k₁)
    [(joinContexts near far).extended step key, (far.concat leap near).extended step key]

/-- The selectors for what both `s₁` and `s₂` select: none if they ask for different
pseudo-elements. -/
def mergeSelectors (s₁ s₂ : Selector) : Except BlockFault (List Selector) :=
  if 1 < s₁.context.length && 1 < s₂.context.length then
    .error (.unmergeable s₁.render s₂.render)
  else
    match s₁.key.pseudoElement?, s₂.key.pseudoElement? with
    | some p₁, some p₂ => if p₁ = p₂ then .ok (join s₁ s₂) else .ok []
    | _, _ => .ok (join s₁ s₂)
where
  join (s₁ s₂ : Selector) : List Selector :=
    let key := mergeCompounds s₁.key s₂.key
    match s₁.split.1, s₂.split.1 with
    | some (c₁, k₁), some (c₂, k₂) => mergeAt key c₁ k₁ c₂ k₂
    | some (c₁, k₁), none => [c₁.extended k₁ key]
    | none, some (c₂, k₂) => [c₂.extended k₂ key]
    | none, none => [.single key]

end StyleBlocks
