import Mathlib.Data.String.Basic
import StyleBlocks.FileName

/-!
# The places that paths denote

A path is read from left to right: a name leads into a directory, `..` out of the one that was
entered last.  A `..` with nothing to cancel leads further up, but stays at the root.  Identifiers are
made by cancelling, and there a `..` that was kept is cancelled by the next one, so that of those with
nothing to cancel every second one is lost.

* `FileName.identify_place_iff`: **an identifier denotes the place of its path** if and only if at
  most one `..` of the path has nothing to cancel.
* `FileName.normal_composes`: **cancelling in two steps is cancelling at once.**
-/

namespace StyleBlocks

open List

namespace FileName

/-! ## Texts of paths -/

theorem pieces_eq_splitOnP (p : Char → Bool) (s : List Char) : pieces p s = s.splitOnP p := by
  induction s with
  | nil => rfl
  | cons c s ih =>
    rw [pieces, ih, splitOnP_cons_eq_if_modifyHead]
    cases h : s.splitOnP p with
    | nil => exact absurd h (splitOnP_ne_nil p s)
    | cons first others => rfl

theorem pieces_slash (s : List Char) : pieces (· == '/') s = s.splitOn '/' :=
  pieces_eq_splitOnP _ s

theorem not_of_mem_pieces {p : Char → Bool} {c : Char} {s t : List Char} (ht : t ∈ pieces p s)
    (hc : c ∈ t) : p c = false := by
  rw [pieces_eq_splitOnP] at ht
  induction s generalizing t with
  | nil =>
    obtain rfl := mem_singleton.1 ht
    cases hc
  | cons x s ih =>
    rw [splitOnP_cons_eq_if_modifyHead] at ht
    split at ht
    · rcases mem_cons.1 ht with rfl | ht
      · cases hc
      · exact ih ht hc
    · cases hs : s.splitOnP p with
      | nil => exact absurd hs (splitOnP_ne_nil p s)
      | cons first others => grind [modifyHead_cons]

variable {b path : String} {parts rest : List PathPart} {c : PathPart}

theorem isAbsolute_iff : isAbsolute path = true ↔ ∃ t, path.toList = '/' :: t := by
  unfold isAbsolute
  rw [String.startsWith_string_iff]
  constructor
  all_goals
    rintro ⟨t, ht⟩
    exact ⟨t, ht.symm⟩

def partsOf (s : List Char) : List PathPart :=
  (s.splitOn '/').filterMap partOf?

theorem partsOf_append_slash (s t : List Char) :
    partsOf (s ++ '/' :: t) = partsOf s ++ partsOf t := by
  rw [partsOf, splitOn_append_cons_self, filterMap_append]
  rfl

/-- What stands before the components between the slashes: the root, or a leading `.`. -/
def lead (path : String) : List PathPart :=
  if isAbsolute path then [.root]
  else if (path.toList.splitOn '/').head? = some ['.'] then [.here] else []

theorem components_eq (path : String) : components path = lead path ++ partsOf path.toList := by
  unfold components partsOf lead isAbsolute
  rw [pieces_slash]
  cases hpieces : path.toList.splitOn '/' with
  | nil => exact absurd hpieces (splitOn_ne_nil _ _)
  | cons first others =>
    by_cases habs : path.startsWith "/" = true
    · obtain ⟨t, ht⟩ := isAbsolute_iff.1 habs
      have hfirst : first = [] := by
        rw [ht, splitOn_cons_eq_if_modifyHead, beq_self_eq_true, if_pos rfl] at hpieces
        exact (List.cons.inj hpieces).1.symm
      simp [habs, hfirst, partOf?]
    · by_cases hdot : first = ['.']
      · simp [habs, hdot, partOf?]
      · cases hpart : partOf? first <;> simp [habs, hdot, hpart]

theorem lead_of_relative (h : isAbsolute path = false) : lead path = [] ∨ lead path = [.here] := by
  unfold lead
  rw [h, if_neg Bool.false_ne_true]
  split
  · exact .inr rfl
  · exact .inl rfl

/-! ## Components that can be written -/

/-- The component is read back from its text. -/
def IsWritten (c : PathPart) : Prop :=
  '/' ∉ c.render.toList ∧ partOf? c.render.toList = some c

theorem isWritten_of_mem_partsOf {s : List Char} (h : c ∈ partsOf s) : IsWritten c := by
  obtain ⟨piece, hpiece, hpart⟩ := mem_filterMap.1 h
  have htext : c.render.toList = piece := by
    unfold partOf? at hpart
    split at hpart
    · cases hpart
    split at hpart
    · rename_i hup
      cases hpart
      exact (beq_iff_eq.1 hup).symm
    · cases hpart
      exact String.toList_ofList
  unfold IsWritten
  rw [htext]
  refine ⟨fun hslash => ?_, hpart⟩
  rw [← pieces_slash] at hpiece
  cases not_of_mem_pieces hpiece hslash

theorem splitOn_written (h : ∀ c ∈ parts, IsWritten c) (hparts : parts ≠ []) :
    ("/".intercalate (parts.map PathPart.render)).toList.splitOn '/'
      = parts.map fun c => c.render.toList := by
  rw [String.toList_intercalate, map_map]
  refine splitOn_intercalate '/' (fun t ht => ?_) (by simpa using hparts)
  obtain ⟨c, hc, rfl⟩ := mem_map.1 ht
  exact (h c hc).1

theorem partsOf_written (h : ∀ c ∈ parts, IsWritten c) :
    partsOf ("/".intercalate (parts.map PathPart.render)).toList = parts := by
  by_cases hparts : parts = []
  · subst hparts
    rfl
  unfold partsOf
  rw [splitOn_written h hparts, filterMap_map]
  conv_rhs => rw [← filterMap_some (l := parts)]
  exact filterMap_congr fun c hc => (h c hc).2

theorem lead_written (h : ∀ c ∈ parts, IsWritten c) :
    lead ("/".intercalate (parts.map PathPart.render)) = [] := by
  cases parts with
  | nil => decide
  | cons c parts =>
    -- the first piece is neither empty nor a `.`, because these stand for no component
    have hpieces := splitOn_written h (cons_ne_nil c parts)
    have hc := (h c mem_cons_self).2
    set text := "/".intercalate ((c :: parts).map PathPart.render)
    have habs : isAbsolute text = false := by
      by_contra habs
      obtain ⟨t, ht⟩ := isAbsolute_iff.1 (by simpa using habs)
      rw [ht, splitOn_cons_eq_if_modifyHead, beq_self_eq_true, if_pos rfl] at hpieces
      have hfirst : [] = c.render.toList := (List.cons.inj hpieces).1
      rw [← hfirst] at hc
      cases hc
    unfold lead
    rw [habs, if_neg Bool.false_ne_true, hpieces, if_neg]
    intro hdot
    have hfirst : c.render.toList = ['.'] := Option.some.inj hdot
    rw [hfirst] at hc
    cases hc

/-- **A path that is written is read back**, whether it begins at the root or not. -/
theorem components_render (rooted : Bool) (h : ∀ c ∈ rest, IsWritten c) :
    components (render ((if rooted then [.root] else []) ++ rest))
      = (if rooted then [.root] else []) ++ rest := by
  cases rooted with
  | true =>
    have htext : (render (.root :: rest)).toList
        = [] ++ '/' :: ("/".intercalate (rest.map PathPart.render)).toList := by
      rw [render, String.toList_append]
      rfl
    have habs : isAbsolute (render (.root :: rest)) = true := isAbsolute_iff.2 ⟨_, htext⟩
    show components (render (.root :: rest)) = .root :: rest
    rw [components_eq, lead, habs, htext, partsOf_append_slash, partsOf_written h]
    rfl
  | false =>
    have htext : render rest = "/".intercalate (rest.map PathPart.render) := by
      cases rest with
      | nil => rfl
      | cons c rest =>
        cases c with
        | root => exact absurd (h .root mem_cons_self).1 (by decide)
        | _ => rfl
    show components (render rest) = rest
    rw [components_eq, htext, lead_written h, partsOf_written h]
    rfl

/-! ## Routes -/

/-- A component that may stand behind others. -/
def IsStep (c : PathPart) : Prop :=
  c = .here ∨ IsWritten c

/-- The components of a path that is not made normal: the root comes first, if at all. -/
def IsRoute (parts : List PathPart) : Prop :=
  ∃ (rooted : Bool) (rest : List PathPart), parts = (if rooted then [.root] else []) ++ rest ∧
    ∀ c ∈ rest, IsStep c

theorem IsStep.ne_root (h : IsStep c) : c ≠ .root := by
  rintro rfl
  rcases h with h | h
  · cases h
  · exact absurd h.1 (by decide)

theorem isStep_components (h : isAbsolute path = false) : ∀ c ∈ components path, IsStep c := by
  rw [components_eq, forall_mem_append]
  refine ⟨?_, fun c hc => .inr (isWritten_of_mem_partsOf hc)⟩
  rcases lead_of_relative h with hlead | hlead <;> simp [hlead, IsStep]

theorem isRoute_components (path : String) : IsRoute (components path) := by
  cases habs : isAbsolute path with
  | false => exact ⟨false, _, rfl, isStep_components habs⟩
  | true =>
    refine ⟨true, partsOf path.toList, ?_, fun c hc => .inr (isWritten_of_mem_partsOf hc)⟩
    rw [components_eq, lead, habs]
    rfl

namespace IsRoute

theorem dropLast (h : IsRoute parts) : IsRoute parts.dropLast := by
  obtain ⟨rooted, rest, rfl, hrest⟩ := h
  by_cases hnil : rest = []
  · subst hnil
    exact ⟨false, [], by cases rooted <;> rfl, by simp⟩
  · exact ⟨rooted, rest.dropLast, dropLast_append_of_ne_nil hnil, fun c hc =>
      hrest c (dropLast_subset _ hc)⟩

theorem append (h : IsRoute parts) (hb : isAbsolute b = false) :
    IsRoute (parts ++ components b) := by
  obtain ⟨rooted, rest, rfl, hrest⟩ := h
  exact ⟨rooted, rest ++ components b, append_assoc .., forall_mem_append.2
    ⟨hrest, isStep_components hb⟩⟩

end IsRoute

end FileName

/-! ## Places -/

/-- What a path denotes: whether it begins at the root, how many directories it leads up, and the
names that follow, the last one first. -/
structure Spot where
  rooted : Bool
  ups : Nat
  names : List String
deriving DecidableEq

namespace Spot

open FileName

def start : Spot := ⟨false, 0, []⟩

/-- One component further.  `..` cancels the name before it; where there is none it leads up, but
stays at the root. -/
def step (p : Spot) : PathPart → Spot
  | .root => ⟨true, 0, []⟩
  | .here => p
  | .up =>
    match p.names with
    | _ :: names => { p with names := names }
    | [] => if p.rooted then p else { p with ups := p.ups + 1 }
  | .name s => { p with names := s :: p.names }

def ofParts (parts : List PathPart) : Spot :=
  parts.foldl step start

def of (path : String) : Spot :=
  ofParts (components path)

/-- How cancelling spells a place, last component first: the names behind at most one `..`. -/
def spelling (p : Spot) (kept : Bool) : List PathPart :=
  p.names.map .name ++ ((if kept then [.up] else []) ++ if p.rooted then [.root] else [])

/-- The one `..` is there for an odd number of them.  At the root it may be there or not. -/
def IsKept (p : Spot) (kept : Bool) : Prop :=
  if p.rooted then p.ups = 0 else p.ups % 2 = kept.toNat

variable {p : Spot} {kept : Bool} {parts : List PathPart} {c : PathPart}

/-- **One step of cancelling**: the place goes on as it should, but for the number of `..`. -/
theorem exists_pushPart (hp : p.IsKept kept) (hc : c ≠ .root) :
    ∃ kept', (p.step c).IsKept kept' ∧
      pushPart (p.spelling kept) c = (p.step c).spelling kept' := by
  obtain ⟨rooted, ups, names⟩ := p
  cases c with
  | root => exact absurd rfl hc
  | here | name s => exact ⟨kept, hp, rfl⟩
  | up =>
    cases names with
    | cons name names => exact ⟨kept, hp, rfl⟩
    | nil =>
      -- with no name to cancel, a `..` that was kept is cancelled, and else this one is kept
      refine ⟨!kept, ?_, by cases rooted <;> cases kept <;> rfl⟩
      cases rooted with
      | true => exact hp
      | false =>
        have hups : ups % 2 = kept.toNat := hp
        show (ups + 1) % 2 = (!kept).toNat
        cases kept <;> simp only [Bool.toNat_true, Bool.toNat_false, Bool.not_true, Bool.not_false]
          at hups ⊢ <;> omega

theorem exists_foldl_pushPart (hp : p.IsKept kept) (h : ∀ c ∈ parts, c ≠ .root) :
    ∃ kept', (parts.foldl step p).IsKept kept' ∧
      parts.foldl pushPart (p.spelling kept) = (parts.foldl step p).spelling kept' := by
  induction parts generalizing p kept with
  | nil => exact ⟨kept, hp, rfl⟩
  | cons c parts ih =>
    obtain ⟨kept', hp', hpush⟩ := exists_pushPart hp (h c mem_cons_self)
    obtain ⟨kept'', hp'', hfold⟩ := ih hp' fun d hd => h d (mem_cons_of_mem c hd)
    refine ⟨kept'', hp'', ?_⟩
    rw [foldl_cons, foldl_cons, hpush, hfold]

/-- **Cancelling spells the place of a path.** -/
theorem exists_simplify (h : IsRoute parts) : ∃ kept, (ofParts parts).IsKept kept ∧
    simplify parts = ((ofParts parts).spelling kept).reverse := by
  obtain ⟨rooted, rest, rfl, hrest⟩ := h
  have hstart : (⟨rooted, 0, []⟩ : Spot).IsKept false := by cases rooted <;> rfl
  obtain ⟨kept, hp, hfold⟩ := exists_foldl_pushPart hstart fun c hc => (hrest c hc).ne_root
  refine ⟨kept, ?_⟩
  cases rooted <;> exact ⟨hp, congrArg List.reverse hfold⟩

theorem reverse_spelling : (p.spelling kept).reverse = (if p.rooted then [.root] else []) ++
    ((if kept then [.up] else []) ++ (p.names.map .name).reverse) := by
  unfold spelling
  cases kept <;> cases p.rooted <;> simp

theorem ofParts_reverse_spelling (hp : p.IsKept kept) :
    ofParts (p.spelling kept).reverse = { p with ups := p.ups % 2 } := by
  have hnames : ∀ (q : Spot) (names : List String),
      (names.map PathPart.name).reverse.foldl step q = { q with names := names ++ q.names } := by
    intro q names
    induction names with
    | nil => rfl
    | cons name names ih => simp [ih, step]
  obtain ⟨rooted, ups, names⟩ := p
  rw [reverse_spelling, ofParts, foldl_append, foldl_append, hnames]
  cases rooted with
  | true =>
    have hups : ups = 0 := hp
    subst hups
    cases kept <;> simp [step]
  | false =>
    have hups : ups % 2 = kept.toNat := hp
    cases kept <;> simp [step, start, hups]

theorem foldl_pushPart_spelling :
    (p.spelling kept).reverse.foldl pushPart [] = p.spelling kept := by
  have hnames : ∀ (stack : List PathPart) (names : List String),
      (names.map PathPart.name).reverse.foldl pushPart stack = names.map .name ++ stack := by
    intro stack names
    induction names with
    | nil => rfl
    | cons name names ih => simp [ih, pushPart]
  rw [reverse_spelling, foldl_append, foldl_append, hnames, spelling]
  cases kept <;> cases p.rooted <;> rfl

end Spot

namespace FileName

variable {a b path rootDir : String} {origin : Option String} {parts : List PathPart} {c : PathPart}

/-! ## Cancelling -/

theorem mem_foldl_pushPart {stack : List PathPart} (h : c ∈ parts.foldl pushPart stack) :
    c ∈ stack ∨ c ∈ parts ∧ c ≠ .here := by
  revert h
  refine foldlRecOn (motive := fun l => c ∈ l → c ∈ stack ∨ c ∈ parts ∧ c ≠ .here) _ _ .inl
    fun l hl d hd h => ?_
  unfold pushPart at h
  grind

theorem IsRoute.components_render (h : IsRoute parts) :
    components (render (simplify parts)) = simplify parts := by
  obtain ⟨kept, -, hspell⟩ := Spot.exists_simplify h
  rw [hspell, Spot.reverse_spelling]
  refine FileName.components_render _ fun c hc => ?_
  have hroot : c ≠ .root := by
    rintro rfl
    cases kept <;> simp at hc
  have hmem : c ∈ simplify parts := by
    rw [hspell, Spot.reverse_spelling]
    exact mem_append_right _ hc
  rcases mem_foldl_pushPart (mem_reverse.1 hmem) with hnil | ⟨hpart, hhere⟩
  · cases hnil
  obtain ⟨rooted, rest, rfl, hrest⟩ := h
  rcases mem_append.1 hpart with hpart | hpart
  · cases rooted <;> simp [hroot] at hpart
  · exact (hrest c hpart).resolve_left hhere

theorem simplify_simplify_append (h : IsRoute parts) (others : List PathPart) :
    simplify (simplify parts ++ others) = simplify (parts ++ others) := by
  obtain ⟨kept, -, hspell⟩ := Spot.exists_simplify h
  have hfold : (simplify parts).foldl pushPart [] = parts.foldl pushPart [] := by
    rw [hspell, Spot.foldl_pushPart_spelling, ← reverse_reverse (parts.foldl pushPart []),
      ← simplify, hspell, reverse_reverse]
  unfold simplify at hfold ⊢
  rw [foldl_append, foldl_append, hfold]

/-! ## Identifiers -/

/-- The path that `path` names from the file at the end of a route. -/
def follow (route : List PathPart) (path : String) : List PathPart :=
  if isAbsolute path then components path else parent route ++ components path

/-- The path whose identifier is asked for, joined and not made normal. -/
def route (origin : Option String) (path rootDir : String) : List PathPart :=
  match origin with
  | some file => follow (components file) path
  | none => if isAbsolute path then components path else components rootDir ++ components path

theorem identify_eq (origin : Option String) (path rootDir : String) :
    identify origin path rootDir = render (simplify (route origin path rootDir)) := by
  unfold identify route follow
  cases origin <;> cases isAbsolute path <;> rfl

theorem IsRoute.follow (h : IsRoute parts) (path : String) : IsRoute (follow parts path) := by
  unfold FileName.follow
  cases habs : isAbsolute path with
  | true => exact isRoute_components path
  | false =>
    have hparent : IsRoute (parent parts) := by
      unfold parent
      split
      · exact ⟨false, [], rfl, by simp⟩
      · exact ⟨false, [], rfl, by simp⟩
      · exact h.dropLast
    exact hparent.append habs

theorem isRoute_route (origin : Option String) (path rootDir : String) :
    IsRoute (route origin path rootDir) := by
  cases origin with
  | some file => exact (isRoute_components file).follow path
  | none =>
    unfold route
    cases habs : isAbsolute path with
    | true => exact isRoute_components path
    | false => exact (isRoute_components rootDir).append habs

/-- An identifier denotes the place of its path, but every second `..` that has nothing to cancel is
lost. -/
theorem place_identify (origin : Option String) (path rootDir : String) :
    Spot.of (identify origin path rootDir) =
      { Spot.ofParts (route origin path rootDir) with
        ups := (Spot.ofParts (route origin path rootDir)).ups % 2 } := by
  have hroute := isRoute_route origin path rootDir
  obtain ⟨kept, hkept, hspell⟩ := Spot.exists_simplify hroute
  rw [Spot.of, identify_eq, hroute.components_render, hspell, Spot.ofParts_reverse_spelling hkept]

/-- **An identifier denotes the place of the path it is made of** if and only if at most one `..` of
the path has nothing to cancel; at the root none counts.  Paths of that kind have the same identifier
only if they denote the same place. -/
theorem identify_place_iff (origin : Option String) (path rootDir : String) :
    (Spot.of (identify origin path rootDir) = Spot.ofParts (route origin path rootDir) ↔
      (Spot.ofParts (route origin path rootDir)).ups ≤ 1) ∧
    ∀ origin' path' rootDir',
      identify origin path rootDir = identify origin' path' rootDir' →
      (Spot.ofParts (route origin path rootDir)).ups ≤ 1 →
      (Spot.ofParts (route origin' path' rootDir')).ups ≤ 1 →
      Spot.ofParts (route origin path rootDir) = Spot.ofParts (route origin' path' rootDir') := by
  have hkeeps : ∀ origin path rootDir,
      Spot.of (identify origin path rootDir) = Spot.ofParts (route origin path rootDir) ↔
        (Spot.ofParts (route origin path rootDir)).ups ≤ 1 := by
    intro origin path rootDir
    rw [place_identify]
    obtain ⟨rooted, ups, names⟩ := Spot.ofParts (route origin path rootDir)
    simp only [Spot.mk.injEq, true_and, and_true]
    omega
  refine ⟨hkeeps origin path rootDir, fun origin' path' rootDir' heq hups hups' => ?_⟩
  rw [← (hkeeps origin path rootDir).2 hups, ← (hkeeps origin' path' rootDir').2 hups', heq]

theorem identify_place_iff_besideParent :
    identify (some "a/b.css") "../../c.css" "" = identify none "x/../../c.css" "" ∧
    Spot.of (identify (some "a/b.css") "../../c.css" "") = ⟨false, 1, ["c.css"]⟩ ∧
    Spot.ofParts (route (some "a/b.css") "../../c.css" "")
      = Spot.ofParts (route none "x/../../c.css" "") := by
  have hsame : identify (some "a/b.css") "../../c.css" "" = identify none "x/../../c.css" "" := by
    decide +kernel
  obtain ⟨hkeeps, hfile⟩ := identify_place_iff (some "a/b.css") "../../c.css" ""
  refine ⟨hsame, (hkeeps.2 ?_).trans ?_, hfile _ _ _ hsame ?_ ?_⟩
  all_goals decide +kernel

/-- Two directories up: the identifier is that of a file of the same name right here. -/
theorem twiceUp_identify :
    identify none "../../a.css" "" = identify none "a.css" "" ∧
    Spot.of (identify none "../../a.css" "") ≠ Spot.ofParts (route none "../../a.css" "") ∧
    Spot.ofParts (route none "../../a.css" "") ≠ Spot.ofParts (route none "a.css" "") := by
  decide +kernel

/-! ## Cancelling in steps -/

def normal (path : String) : String :=
  render (simplify (components path))

theorem components_normal (path : String) : components (normal path) = simplify (components path) :=
  (isRoute_components path).components_render

theorem normal_identify (origin : Option String) (path rootDir : String) :
    normal (identify origin path rootDir) = identify origin path rootDir := by
  have hroute := isRoute_route origin path rootDir
  have htwice := simplify_simplify_append hroute []
  rw [append_nil, append_nil] at htwice
  rw [normal, identify_eq, hroute.components_render, htwice]

theorem identify_empty (path : String) : identify none path "" = normal path := by
  have hnil : components "" = [] := by decide
  rw [identify_eq, route, hnil, nil_append, ite_self]
  rfl

theorem identify_normal (path directory : String) :
    identify none path (normal directory) = identify none path directory := by
  rw [identify_eq, identify_eq]
  unfold route
  cases isAbsolute path with
  | true => rfl
  | false =>
    have hjoin := simplify_simplify_append (isRoute_components directory) (components path)
    rw [← components_normal] at hjoin
    exact congrArg render hjoin

def EndsInName (parts : List PathPart) : Prop :=
  ∃ name, parts.getLast? = some (.name name)

theorem EndsInName.follow (h : EndsInName (components path)) (parts : List PathPart) :
    EndsInName (follow parts path) := by
  obtain ⟨name, hname⟩ := h
  refine ⟨name, ?_⟩
  unfold FileName.follow
  split
  · exact hname
  · rw [getLast?_append, hname]
    rfl

theorem simplify_follow (hroute : IsRoute parts) (h : EndsInName parts) (path : String) :
    simplify (follow (simplify parts) path) = simplify (follow parts path) := by
  obtain ⟨name, hname⟩ := h
  obtain ⟨directory, rfl⟩ := getLast?_eq_some_iff.1 hname
  have hdirectory : IsRoute directory := by
    simpa using hroute.dropLast
  have hsimplify : simplify (directory ++ [.name name]) = simplify directory ++ [.name name] := by
    simp [simplify, pushPart]
  have hparent : ∀ l : List PathPart, parent (l ++ [.name name]) = l := by
    intro l
    simp [parent]
  unfold follow
  split
  · rfl
  · rw [hsimplify, hparent, hparent]
    exact simplify_simplify_append hdirectory _

/-- **A chain of references has one identifier**: that of the path that the references make when they
are joined, at whatever points it is made normal. -/
theorem foldl_identify {file : String} {paths : List String} (hfile : EndsInName (components file))
    (hpaths : ∀ path ∈ paths, EndsInName (components path)) (rootDir : String) :
    paths.foldl (fun identifier path => identify (some identifier) path rootDir) (normal file)
      = render (simplify (paths.foldl follow (components file))) := by
  suffices H : ∀ parts, IsRoute parts → EndsInName parts →
      paths.foldl (fun identifier path => identify (some identifier) path rootDir)
        (render (simplify parts)) = render (simplify (paths.foldl follow parts)) from
    H _ (isRoute_components file) hfile
  induction paths with
  | nil => exact fun _ _ _ => rfl
  | cons path paths ih =>
    intro parts hroute hparts
    have hstep : identify (some (render (simplify parts))) path rootDir
        = render (simplify (follow parts path)) := by
      rw [identify_eq, route, hroute.components_render, simplify_follow hroute hparts]
    rw [foldl_cons, foldl_cons, hstep]
    exact ih (fun p hp => hpaths p (mem_cons_of_mem path hp)) _ (hroute.follow path)
      ((hpaths path mem_cons_self).follow parts)

/-- **Cancelling in two steps is cancelling at once.**  Seen from a directory, a path has the same
identifier as from that directory made normal, and what is normal stays as it is.  So an identifier is
its own one from the working directory, and a chain of references from file to file has the identifier
of the joined path. -/
theorem normal_composes (a b rootDir : String) :
    identify none b (normal a) = identify none b a ∧ normal (normal a) = normal a ∧
    (∀ origin path here, normal here = "" →
      identify none (identify origin path rootDir) here = identify origin path rootDir) ∧
    ∀ (file : String) (paths : List String), EndsInName (components file) →
      (∀ path ∈ paths, EndsInName (components path)) →
      paths.foldl (fun identifier path => identify (some identifier) path rootDir) (normal file)
        = render (simplify (paths.foldl follow (components file))) := by
  refine ⟨identify_normal b a, ?_, fun origin path here hhere => ?_,
    fun file paths hfile hpaths => foldl_identify hfile hpaths rootDir⟩
  · rw [← identify_empty a, normal_identify]
  · rw [← identify_normal, hhere, identify_empty, normal_identify]

theorem normal_composes_upAndDown :
    normal "./." = "" ∧ EndsInName (components "a/./b.css") ∧
    (∀ path ∈ ["../c/d.css", "../../e.css"], EndsInName (components path)) ∧
    identify none "./../z.css" (normal "x/../..") = identify none "./../z.css" "x/../.." ∧
    identify none (identify (some "x/y.css") "../../z.css" "") "./."
      = identify (some "x/y.css") "../../z.css" "" ∧
    ["../c/d.css", "../../e.css"].foldl (fun identifier path => identify (some identifier) path "")
        (normal "a/./b.css")
      = render (simplify (["../c/d.css", "../../e.css"].foldl follow (components "a/./b.css"))) := by
  have hhere : normal "./." = "" := by decide +kernel
  have hfile : EndsInName (components "a/./b.css") := ⟨"b.css", by decide +kernel⟩
  have hpaths : ∀ path ∈ ["../c/d.css", "../../e.css"], EndsInName (components path) := by
    intro path hpath
    simp only [mem_cons, not_mem_nil, or_false] at hpath
    rcases hpath with rfl | rfl
    · exact ⟨"d.css", by decide +kernel⟩
    · exact ⟨"e.css", by decide +kernel⟩
  obtain ⟨hcompose, -, hagain, hchain⟩ := normal_composes "x/../.." "./../z.css" ""
  exact ⟨hhere, hfile, hpaths, hcompose, hagain _ _ _ hhere, hchain _ _ hfile hpaths⟩

end FileName

end StyleBlocks
