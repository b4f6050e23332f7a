import StyleBlocks.Text.Blank

/-!
# Properties

A shorthand property sets several longhand properties at once, so `margin` and `margin-top` touch
the same value.
-/

namespace StyleBlocks

def sideNames : List String := ["top", "right", "bottom", "left"]

def sides (stem ending : String) : List String :=
  sideNames.map fun side => stem ++ "-" ++ side ++ ending

def shorthands : List (String × List String) := [
  ("margin", sides "margin" ""),
  ("padding", sides "padding" ""),
  ("inset", sideNames),
  ("border-width", sides "border" "-width"),
  ("border-style", sides "border" "-style"),
  ("border-color", sides "border" "-color"),
  ("border", sides "border" "-width" ++ sides "border" "-style" ++ sides "border" "-color"),
  ("border-top", ["border-top-width", "border-top-style", "border-top-color"]),
  ("border-right", ["border-right-width", "border-right-style", "border-right-color"]),
  ("border-bottom", ["border-bottom-width", "border-bottom-style", "border-bottom-color"]),
  ("border-left", ["border-left-width", "border-left-style", "border-left-color"]),
  ("border-radius", ["border-top-left-radius", "border-top-right-radius",
    "border-bottom-right-radius", "border-bottom-left-radius"]),
  ("outline", ["outline-color", "outline-style", "outline-width"]),
  ("background", ["background-color", "background-image", "background-repeat",
    "background-attachment", "background-position", "background-size", "background-origin",
    "background-clip"]),
  ("font", ["font-style", "font-variant", "font-weight", "font-stretch", "font-size",
    "line-height", "font-family"]),
  ("flex", ["flex-grow", "flex-shrink", "flex-basis"]),
  ("flex-flow", ["flex-direction", "flex-wrap"]),
  ("overflow", ["overflow-x", "overflow-y"]),
  ("gap", ["row-gap", "column-gap"]),
  ("list-style", ["list-style-type", "list-style-position", "list-style-image"]),
  ("text-decoration", ["text-decoration-line", "text-decoration-style",
    "text-decoration-color"]),
  ("transition", ["transition-property", "transition-duration", "transition-timing-function",
    "transition-delay"]),
  ("animation", ["animation-name", "animation-duration", "animation-timing-function",
    "animation-delay", "animation-iteration-count", "animation-direction",
    "animation-fill-mode", "animation-play-state"])]

/-- The longhands that a property sets, if it is a shorthand. -/
def longhands (property : String) : List String :=
  (shorthands.lookup property).getD []

theorem shorthands_flat :
    (shorthands.all fun entry => entry.2.all fun q => longhands q == []) = true := by
  decide +kernel

theorem longhands_of_mem {p q : String} (h : q ∈ longhands p) : longhands q = [] := by
  unfold longhands at h
  cases hl : shorthands.lookup p with
  | none => simp [hl] at h
  | some qs =>
    rw [hl, Option.getD_some] at h
    have hmem : (p, qs) ∈ shorthands := by
      obtain ⟨l₁, l₂, hs, _⟩ := List.lookup_eq_some_iff.1 hl
      rw [hs]; simp
    have := List.all_eq_true.1 (List.all_eq_true.1 shorthands_flat _ hmem) q h
    simpa using this

/-- A property in lower case and all longhands it sets. -/
def covered (property : String) : List String :=
  lowercase property :: longhands (lowercase property)

/-- Two properties set a common longhand, or are the same. -/
def overlaps (a b : String) : Bool :=
  (covered b).any (covered a).contains

end StyleBlocks
