import StyleBlocks.Selector
import StyleBlocks.Stylesheet.Parser

/-!
# Reading selectors

A list of selectors is cut at its commas, and each selector is read component by component.  Spaces
around a combinator say nothing, spaces between compounds are a combinator, and spaces inside a
compound are not allowed; comments are skipped everywhere.  A fault is located where the text read
before it ends, so before the spaces and comments in front of what is at fault.

* `readSimple`: one condition; `readSimple_length_le`: it takes no component back.
* `Selector.parseList`, `Selector.parse`: a list of selectors, a single selector.
-/

namespace StyleBlocks

variable {cs rest : List Component}

/-- The first component that is not skipped, where the text before it ends, and what follows it. -/
def nextComponent (skip : Component → Bool) (stop : Location) (cs : List Component) :
    Except LocatedFault (Location × Component × List Component) :=
  match cs.dropWhile skip with
  | [] => .error (stop, .unexpectedEnd)
  | c :: rest => .ok (headLocation stop cs, c, rest)

theorem length_lt_of_dropWhile_eq_cons {α : Type} {p : α → Bool} {l rest : List α} {a : α}
    (h : l.dropWhile p = a :: rest) : rest.length < l.length := by
  have := (List.dropWhile_suffix (l := l) p).length_le
  rw [h, List.length_cons] at this
  omega

theorem nextComponent_length_lt {skip : Component → Bool} {stop at' : Location} {c : Component}
    (h : nextComponent skip stop cs = .ok (at', c, rest)) : rest.length < cs.length := by
  unfold nextComponent at h
  split at h
  · simp at h
  · rename_i heq
    simp only [Except.ok.injEq, Prod.mk.injEq] at h
    obtain ⟨_, rfl, rfl⟩ := h
    exact length_lt_of_dropWhile_eq_cons heq

def expectIdent (stop : Location) (cs : List Component) :
    Except LocatedFault (String × List Component) :=
  match nextComponent Component.isComment stop cs with
  | .error e => .error e
  | .ok (location, c, rest) =>
    match c.token with
    | .ident name => .ok (name, rest)
    | t => .error (location, .unexpectedToken t)

theorem expectIdent_length_lt {stop : Location} {name : String}
    (h : expectIdent stop cs = .ok (name, rest)) : rest.length < cs.length := by
  unfold expectIdent at h
  split at h
  · simp at h
  · rename_i location c rest' heq
    split at h
    · simp only [Except.ok.injEq, Prod.mk.injEq] at h
      exact h.2 ▸ nextComponent_length_lt heq
    · simp at h

/-! ## Attributes -/

def readAttributeName (stop : Location) (cs : List Component) :
    Except LocatedFault ((Option String × String) × List Component) := do
  let (location, c, cs) ← nextComponent Component.isFiller stop cs
  match c.token with
  | .ident first =>
    match cs.dropWhile Component.isComment with
    | bar :: rest =>
      if bar.token = .delim '|' then
        let (name, rest) ← expectIdent stop rest
        return ((some first, name), rest)
      else return ((none, first), cs)
    | [] => return ((none, first), cs)
  | .delim '*' =>
    let (location, bar, cs) ← nextComponent Component.isFiller stop cs
    if bar.token = .delim '|' then
      let (name, cs) ← expectIdent stop cs
      return ((some "*", name), cs)
    else throw (location, .unexpectedToken bar.token)
  | .delim '|' =>
    let (name, cs) ← expectIdent stop cs
    return ((some "", name), cs)
  | t => throw (location, .unexpectedToken t)

def attributeMatcher? : Token → Option AttributeMatcher
  | .delim '=' => some .equals
  | .includeMatch => some .includes
  | .dashMatch => some .dashMatch
  | .prefixMatch => some .prefixMatch
  | .suffixMatch => some .suffixMatch
  | .substringMatch => some .substringMatch
  | _ => none

def attributeValue? : Token → Option String
  | .ident value => some value
  | .string value => some value
  | _ => none

/-- The letter behind a value that says whether case matters. -/
def readCaseFlag (cs : List Component) : Bool × List Component :=
  match cs.dropWhile Component.isFiller with
  | c :: rest =>
    match c.token with
    | .ident flag =>
      if sameIgnoringCase flag "i" then (true, rest)
      else if sameIgnoringCase flag "s" then (false, rest)
      else (false, cs)
    | _ => (false, cs)
  | [] => (false, cs)

def expectEnd (stop : Location) (cs : List Component) : Except LocatedFault Unit :=
  match cs.dropWhile Component.isFiller with
  | [] => .ok ()
  | c :: _ => .error (headLocation stop cs, .unexpectedToken c.token)

def readAttribute (stop : Location) (cs : List Component) : Except LocatedFault Attribute := do
  let ((space, name), cs) ← readAttributeName stop cs
  match cs.dropWhile Component.isFiller with
  | [] => return ⟨space, name, none, none, false⟩
  | c :: rest =>
    match attributeMatcher? c.token with
    | none => throw (headLocation stop cs, .unexpectedToken c.token)
    | some operator =>
      let (location, v, rest) ← nextComponent Component.isFiller stop rest
      match attributeValue? v.token with
      | none => throw (location, .unexpectedToken v.token)
      | some value =>
        let (ignoreCase, rest) := readCaseFlag rest
        expectEnd stop rest
        return ⟨space, name, some operator, some value, ignoreCase⟩

/-! ## Conditions -/

def argumentOf : Component → String
  | .leaf _ => ""
  | .block _ _ body _ _ => String.ofList (trim (Component.textOf body))

/-- The pseudo-elements that may be written with one colon. -/
def isOneColonElement (name : String) : Bool :=
  ["before", "after", "first-line", "first-letter"].contains (lowercase name)

def readPseudoElement (stop : Location) (cs : List Component) :
    Except LocatedFault (Simple × List Component) :=
  match nextComponent Component.isComment stop cs with
  | .error e => .error e
  | .ok (location, c, rest) =>
    match c.token with
    | .ident name => .ok (.pseudoElement (lowercase name) none, rest)
    | .function name => .ok (.pseudoElement (lowercase name) (some (argumentOf c)), rest)
    | t => .error (location, .unexpectedToken t)

def readPseudo (stop : Location) (cs : List Component) :
    Except LocatedFault (Simple × List Component) :=
  match nextComponent Component.isComment stop cs with
  | .error e => .error e
  | .ok (location, c, rest) =>
    match c.token with
    | .colon => readPseudoElement stop rest
    | .ident name =>
      if isOneColonElement name then .ok (.pseudoElement (lowercase name) none, rest)
      else .ok (.pseudoClass (lowercase name) none, rest)
    | .function name => .ok (.pseudoClass (lowercase name) (some (argumentOf c)), rest)
    | t => .error (location, .unexpectedToken t)

def readSimple (stop location : Location) (c : Component) (cs : List Component) :
    Except LocatedFault (Simple × List Component) :=
  match c with
  | .block _ .square body stop _ => (readAttribute stop body).map fun a => (.hasAttribute a, cs)
  | c =>
    match c.token with
    | .ident name => .ok (.tag name, cs)
    | .delim '*' => .ok (.universal, cs)
    | .idHash name => .ok (.id name, cs)
    | .delim '.' => (expectIdent stop cs).map fun (name, rest) => (.className name, rest)
    | .colon => readPseudo stop cs
    | t => .error (location, .unexpectedToken t)

theorem readPseudoElement_length_le {stop : Location} {s : Simple}
    (h : readPseudoElement stop cs = .ok (s, rest)) : rest.length ≤ cs.length := by
  unfold readPseudoElement at h
  split at h
  · simp at h
  · rename_i heq
    have := nextComponent_length_lt heq
    split at h
    · simp only [Except.ok.injEq, Prod.mk.injEq] at h
      obtain ⟨_, rfl⟩ := h
      omega
    · simp only [Except.ok.injEq, Prod.mk.injEq] at h
      obtain ⟨_, rfl⟩ := h
      omega
    · simp at h

theorem readPseudo_length_le {stop : Location} {s : Simple}
    (h : readPseudo stop cs = .ok (s, rest)) : rest.length ≤ cs.length := by
  unfold readPseudo at h
  split at h
  · simp at h
  · rename_i heq
    have := nextComponent_length_lt heq
    split at h
    · have := readPseudoElement_length_le h
      omega
    · split at h <;>
      · simp only [Except.ok.injEq, Prod.mk.injEq] at h
        obtain ⟨_, rfl⟩ := h
        omega
    · simp only [Except.ok.injEq, Prod.mk.injEq] at h
      obtain ⟨_, rfl⟩ := h
      omega
    · simp at h

theorem readSimple_length_le {stop location : Location} {c : Component} {s : Simple}
    (h : readSimple stop location c cs = .ok (s, rest)) : rest.length ≤ cs.length := by
  unfold readSimple at h
  split at h
  · rename_i body stop' _
    cases hb : readAttribute stop' body with
    | error e => simp [hb, Except.map] at h
    | ok a =>
      simp only [hb, Except.map, Except.ok.injEq, Prod.mk.injEq] at h
      exact h.2 ▸ Nat.le_refl _
  · split at h
    · simp only [Except.ok.injEq, Prod.mk.injEq] at h
      exact h.2 ▸ Nat.le_refl _
    · simp only [Except.ok.injEq, Prod.mk.injEq] at h
      exact h.2 ▸ Nat.le_refl _
    · simp only [Except.ok.injEq, Prod.mk.injEq] at h
      exact h.2 ▸ Nat.le_refl _
    · cases hb : expectIdent stop cs with
      | error e => simp [hb, Except.map] at h
      | ok p =>
        simp only [hb, Except.map, Except.ok.injEq, Prod.mk.injEq] at h
        have := expectIdent_length_lt (show expectIdent stop cs = .ok (p.1, p.2) from hb)
        rw [← h.2]
        omega
    · exact readPseudo_length_le h
    · simp at h

/-! ## Selectors -/

def combinator? : Token → Option Combinator
  | .delim '>' => some .child
  | .delim '+' => some .adjacent
  | .delim '~' => some .sibling
  | _ => none

/-- The rest of a selector, where `context` and the compound `current` are read; `spaced` says that
a space stands behind `current`. -/
def readSelector (stop : Location) (context : List (Compound × Combinator)) (current : Compound)
    (spaced : Bool) (cs : List Component) : Except LocatedFault Selector :=
  match hd : cs.dropWhile Component.isComment with
  | [] => if current.isEmpty then .error (stop, .expectedSelector) else .ok ⟨context, current⟩
  | c :: rest =>
    have := length_lt_of_dropWhile_eq_cons hd
    match c.token with
    | .space _ => readSelector stop context current (!current.isEmpty) rest
    | token =>
      match combinator? token with
      | some combinator =>
        if current.isEmpty then
          .error (headLocation stop cs, .unexpectedCombinator combinator.symbol)
        else readSelector stop (context ++ [(current, combinator)]) [] false rest
      | none =>
        match hs : readSimple stop (headLocation stop cs) c rest with
        | .error e => .error e
        | .ok (simple, rest') =>
          if spaced then
            readSelector stop (context ++ [(current, .descendant)]) [simple] false rest'
          else if current.any Simple.isPseudoElement && !simple.isPseudoElement then
            .error (headLocation stop cs, .afterPseudoElement simple.render)
          else readSelector stop context (current ++ [simple]) false rest'
termination_by cs.length
decreasing_by
  · exact this
  · exact this
  · exact Nat.lt_of_le_of_lt (readSimple_length_le hs) this
  · exact Nat.lt_of_le_of_lt (readSimple_length_le hs) this

/-- The parts of a list between its commas, each with the location of its end. -/
def splitCommas (stop : Location) : List Component → List (List Component × Location)
  | [] => [([], stop)]
  | c :: cs =>
    if c.token = .comma then ([], c.location) :: splitCommas stop cs
    else
      match splitCommas stop cs with
      | (part, location) :: parts => (c :: part, location) :: parts
      | [] => [([c], stop)]

def readListItem (item : List Component × Location) : Except LocatedFault Selector :=
  readSelector item.2 [] [] false (item.1.dropWhile Component.isFiller)

namespace Selector

def parseList (text : String) : Except SyntaxError (List Selector) :=
  let (components, stop) := Component.parse text.toList
  ((splitCommas stop components).mapM readListItem).mapError fun (location, fault) =>
    .selector text location.column fault

def parse (text : String) : Except SyntaxError Selector := do
  match ← parseList text with
  | [s] => return s
  | selectors => throw (.selector text 1 (.expectedSingleSelector selectors.length))

end Selector

end StyleBlocks
