import StyleBlocks.Proofs.Compilation.Scope
import StyleBlocks.Proofs.Session.OutputClasses
import StyleBlocks.Proofs.Selector.Reprinting

/-!
# Rewritten selectors as text

A rule keeps its selectors as text.  The pass that puts output classes into them prints what it has
made, and every later pass reads that text again.

A rewritten compound is a class and the pseudo-classes and pseudo-elements of the source, so no tag
can run into the name before it.  The class is written with escapes, but the names of pseudo-classes
are not: a name that needs escapes is read as something else.

Main result: `Session.Reachable.rewritten_parseList`.
-/

namespace StyleBlocks

open List

/-! ## Names without escapes -/

/-- The name of a pseudo-class or a pseudo-element can be written as it is. -/
def Simple.isUnescaped (x : Simple) : Bool :=
  x.pseudoName?.all isIdentifier

def Selector.isUnescaped (s : Selector) : Bool :=
  s.compounds.all fun c => c.all Simple.isUnescaped

theorem Simple.IsWellNamed.isUnescaped {x : Simple} (h : x.IsWellNamed) : x.isUnescaped = true := by
  cases x with
  | pseudoClass name argument | pseudoElement name argument => exact h.1
  | tag | universal | id | className | hasAttribute => rfl

theorem Simple.IsWritten.isWellNamed_of_isPseudo {part : List Component} {x : Simple}
    (h : Simple.IsWritten part x) (hpseudo : x.isPseudo = true) (hx : x.isUnescaped = true) :
    x.IsWellNamed := by
  cases x with
  | pseudoClass name argument | pseudoElement name argument =>
    exact h.isWellNamed_of_pseudoName? rfl hx
  | tag | universal | id | className | hasAttribute => cases hpseudo

/-! ## Rewritten compounds -/

/-- A class and then pseudo-classes and pseudo-elements as they were read can be printed. -/
theorem Compound.IsWritten.isPrintable_className {part : List Component} {c : Compound}
    (h : Compound.IsWritten part c) {name : String} (hname : '\x00' ∉ name.toList ∧ name.toList ≠ [])
    (hnames : ∀ x ∈ c.filter Simple.isPseudo, x.isUnescaped = true) :
    Compound.IsPrintable (.className name :: c.filter Simple.isPseudo) := by
  refine ⟨by simp, ?_, ?_, ?_⟩
  · intro x hx
    rcases mem_cons.1 hx with rfl | hx
    · exact hname
    · obtain ⟨q, -, hwritten⟩ := h.conditions.exists_of_mem (mem_filter.1 hx).1
      exact hwritten.isWellNamed_of_isPseudo (mem_filter.1 hx).2 (hnames x hx)
  · exact pairwise_cons.2 ⟨fun y _ helement => absurd helement Bool.false_ne_true,
      h.elements.sublist filter_sublist⟩
  · -- there is no tag at all
    refine List.Pairwise.isChain (pairwise_of_forall_mem_list fun x _ y hy _ tag htag => ?_)
    subst htag
    rcases mem_cons.1 hy with hy | hy
    · cases hy
    · exact absurd (mem_filter.1 hy).2 (by simp [Simple.isPseudo])

namespace Catalog.WritesSelector

variable {g : Catalog} {n : Nat} {s written : Selector}

theorem all_compounds {p : Simple → Bool} (h : g.WritesSelector n s written)
    (hclass : ∀ name, p (.className name) = true) (hs : ∀ c ∈ s.compounds, ∀ x ∈ c, p x = true) :
    ∀ c ∈ written.compounds, ∀ x ∈ c, p x = true := by
  intro c' hc' x hx
  obtain ⟨c, hc, path, id, -, -, rfl⟩ := exists_left_of_forall₂ h.compounds hc'
  rcases mem_cons.1 hx with rfl | hx
  · exact hclass _
  · exact hs c hc x (mem_filter.1 hx).1

end Catalog.WritesSelector

namespace Workspace.Sound

variable {loading : List String} {w : Workspace} {n : Nat}

section

variable (h : w.Sound loading) (hn : (w.catalog.block n).IsComplete)

include h hn

theorem isComplete_of_inScope {path : ObjectPath} {id : ObjectId}
    (hid : w.catalog.InScope n path id) : (w.catalog.block id.block).IsComplete := by
  cases hid with
  | own _ hblock => exact hblock ▸ hn
  | @foreign name target _ hname hfind _ =>
    have htarget := ((h.grounded hn).of_linksTo
      (.reference _ (SortedMap.mem_of_find? hname))).isComplete
    exact (h.of_find? htarget hfind rfl).1.isComplete

theorem isPrintable_of_writes {s written : Selector}
    (hread : ∀ c ∈ s.compounds, ∃ part, Compound.IsWritten part c)
    (hwrites : w.catalog.WritesSelector n s written) (hnames : written.isUnescaped = true) :
    written.IsPrintable := by
  intro c' hc'
  have hc'names := all_eq_true.1 (all_eq_true.1 hnames c' hc')
  obtain ⟨c, hc, path, id, -, hid, rfl⟩ := exists_left_of_forall₂ hwrites.compounds hc'
  obtain ⟨part, hpart⟩ := hread c hc
  exact hpart.isPrintable_className (h.className_readable (h.isComplete_of_inScope hn hid))
    fun x hx => hc'names x (mem_cons_of_mem _ hx)

/-- **What is written for a rule is read back if and only if all arguments are closed**, where the
names need no escapes. -/
theorem parseList_written_iff {text : String} {selectors written : List Selector}
    (hparse : Selector.parseList text = .ok selectors)
    (hwrites : Forall₂ (w.catalog.WritesSelector n) selectors written)
    (hnames : ∀ t ∈ written, t.isUnescaped = true) :
    Selector.parseList (renderSelectors written) = .ok written ↔ ∀ t ∈ written, t.isClosed = true := by
  apply Selector.parseList_render_iff
  · rintro rfl
    exact Selector.ne_nil_of_parseList hparse (forall₂_nil_right_iff.1 hwrites)
  intro t ht
  obtain ⟨s, hs, hwrites⟩ := exists_left_of_forall₂ hwrites ht
  refine h.isPrintable_of_writes hn (fun c hc => ?_) hwrites (hnames t ht)
  obtain ⟨part, -, hpart⟩ := Selector.exists_isWritten_of_parseList hparse hs hc
  exact ⟨part, hpart⟩

end

end Workspace.Sound

section

variable {g : Catalog} {n : Nat} {text : String} {selectors written : List Selector}
  (hbackslash : '\\' ∉ text.toList) (hparse : Selector.parseList text = .ok selectors)
  (hwrites : List.Forall₂ (g.WritesSelector n) selectors written)

include hbackslash hparse hwrites

theorem Selector.isUnescaped_of_writes : ∀ t ∈ written, t.isUnescaped = true := by
  intro t ht
  obtain ⟨s, hs, hwrites⟩ := exists_left_of_forall₂ hwrites ht
  have hall := hwrites.all_compounds (p := Simple.isUnescaped) (fun _ => rfl) fun c hc x hx => by
    obtain ⟨part, hpart, hwritten⟩ := Selector.exists_isWritten_of_parseList hparse hs hc
    exact (hwritten.isWellNamed hbackslash hpart x hx).isUnescaped
  exact all_eq_true.2 fun c hc => all_eq_true.2 (hall c hc)

theorem Selector.isClosed_of_writes (htidy : ∀ l ∈ Lexeme.cut text.toList, l.isTidy = true)
    (hbrackets : Component.openAtEnd (Lexeme.cut text.toList) = []) :
    ∀ t ∈ written, t.isClosed = true := by
  intro t ht
  obtain ⟨s, hs, hwrites⟩ := exists_left_of_forall₂ hwrites ht
  have hclosed := Selector.isClosed_of_parseList hbackslash htidy hbrackets hparse s hs
  have hall := hwrites.all_compounds (p := Simple.isClosed) (fun _ => rfl) fun c hc =>
    all_eq_true.1 (all_eq_true.1 hclosed c hc)
  exact all_eq_true.2 fun c hc => all_eq_true.2 (hall c hc)

end

/-! ## The rules of a loaded block -/

/-- **Rewritten selectors are read back.**  Compiling a loaded block rewrites each rule that is left.
Where the names of pseudo-classes and pseudo-elements need no escapes, the text that is written is
read as the selectors it was made of if and only if their arguments are closed.  It is so read if
the text in the source has no backslash, all its brackets are closed, and no token is a broken string
or has other blanks than spaces at its ends. -/
theorem Session.Reachable.rewritten_parseList {s : Session} (hs : s.Reachable) {n : Nat}
    {sheet : Stylesheet} (hsheet : (s.catalog.block n).stylesheet = some sheet) :
    ∃ k, Pass.sequence ((passes (s.catalog.job n sheet) s.library.options).take 4)
        { sheet := sheet } = (k, none) ∧
      List.Forall₂ (fun a b => a.1 = b.1 ∧ ∃ selectors written,
          (s.catalog.job n sheet).CompiledTo a.2 b.2 selectors written ∧
          ((∀ t ∈ written, t.isUnescaped = true) →
            (Selector.parseList b.2.selector = .ok written ↔ ∀ t ∈ written, t.isClosed = true)) ∧
          ('\\' ∉ a.2.selector.toList →
            Component.openAtEnd (Lexeme.cut a.2.selector.toList) = [] →
            (∀ l ∈ Lexeme.cut a.2.selector.toList, l.isTidy = true) →
              Selector.parseList b.2.selector = .ok written))
        (placedRules false (clearNodes sheet.nodes)) (placedRules false k.sheet.nodes) := by
  obtain ⟨k, hk, hwalk⟩ := hs.earlyPasses_ok hsheet
  rw [take_passes]
  refine ⟨k, hk, hwalk.imp ?_⟩
  rintro a b ⟨hplace, selectors, written, hcompiled, hwrites⟩
  have hiff := hs.sound.parseList_written_iff (Block.isComplete_of_stylesheet hsheet)
    hcompiled.parse hwrites
  rw [← hcompiled.selector] at hiff
  refine ⟨hplace, selectors, written, hcompiled, hiff, fun hbackslash hbrackets htidy => ?_⟩
  exact (hiff (Selector.isUnescaped_of_writes hbackslash hcompiled.parse hwrites)).2
    (Selector.isClosed_of_writes hbackslash hcompiled.parse hwrites htidy hbrackets)

/-- A rule with a list of selectors, an argument with spaces and a bracket in a string, a comment
and a global state of another block. -/
def manyConditions : Session :=
  .ofFiles [("base.css", ".a[state|on] \x7b block-global: true; color: red \x7d"),
    ("child.css", "@block-reference base from \"base.css\"; base.a[state|on] > " ++
      ".b:Not( [c='d)'] )/**/::Before, :scope:hover .e \x7b color: blue \x7d")] ["child.css"]

theorem rewritten_parseList_manyConditions : ∃ sheet,
    (manyConditions.catalog.block 0).stylesheet = some sheet ∧
    ∃ k, Pass.sequence ((passes (manyConditions.catalog.job 0 sheet)
        manyConditions.library.options).take 4) { sheet := sheet } = (k, none) ∧
      List.Forall₂ (fun a b => a.1 = b.1 ∧ ∃ selectors written,
          (manyConditions.catalog.job 0 sheet).CompiledTo a.2 b.2 selectors written ∧
          Selector.parseList b.2.selector = .ok written)
        (placedRules false (clearNodes sheet.nodes)) (placedRules false k.sheet.nodes) := by
  have hloaded : (manyConditions.catalog.block 0).stylesheet.isSome = true := by decide +kernel
  have hplain : ((manyConditions.catalog.block 0).stylesheet.all fun sheet =>
      (placedRules false (clearNodes sheet.nodes)).all fun a =>
        !a.2.selector.toList.contains '\\' &&
          (Component.openAtEnd (Lexeme.cut a.2.selector.toList)).isEmpty &&
            (Lexeme.cut a.2.selector.toList).all Lexeme.isTidy) = true := by
    decide +kernel
  obtain ⟨sheet, hsheet⟩ := Option.isSome_iff_exists.1 hloaded
  rw [hsheet, Option.all_some, List.all_eq_true] at hplain
  obtain ⟨k, hk, hrules⟩ :=
    Session.Reachable.rewritten_parseList (Session.reachable_ofFiles _ _) hsheet
  refine ⟨sheet, hsheet, k, hk, forall₂_imp_of_mem hrules ?_⟩
  rintro a b ha ⟨hplace, selectors, written, hcompiled, -, hread⟩
  obtain ⟨⟨hbackslash, hbrackets⟩, htidy⟩ : (_ ∧ _) ∧ _ := by simpa using hplain a ha
  exact ⟨hplace, selectors, written, hcompiled, hread hbackslash hbrackets htidy⟩

/-- A pseudo-class whose name has a comma in it. -/
def escapedPseudo : Session :=
  .ofFiles [("a.css", ".x:foo\\,bar \x7b color: red \x7d")] ["a.css"]

/-- The selector is rewritten as it should be, but its text is read as two. -/
theorem escapedPseudo_parseList_ne :
    ((escapedPseudo.catalog.block 0).stylesheet.map fun sheet =>
      (Pass.sequence ((passes (escapedPseudo.catalog.job 0 sheet)
        escapedPseudo.library.options).take 4) { sheet := sheet }).1.sheet.rules.map fun r =>
          r.selector) = some [".a__x:foo,bar"] ∧
    (Selector.parseList ".x:foo\\,bar").toOption
      = some [⟨[], [.className "x", .pseudoClass "foo,bar" none]⟩] ∧
    (escapedPseudo.catalog.compileSelector 0
        ⟨[], [.className "x", .pseudoClass "foo,bar" none]⟩).toOption
      = some ⟨[], [.className "a__x", .pseudoClass "foo,bar" none]⟩ ∧
    (Selector.parseList ".a__x:foo,bar").toOption
      = some [⟨[], [.className "a__x", .pseudoClass "foo" none]⟩, ⟨[], [.tag "bar"]⟩] := by
  refine ⟨?_, ?_, ?_, ?_⟩ <;> decide +kernel

end StyleBlocks
