import StyleBlocks.Proofs.Selector.Arguments
import StyleBlocks.Proofs.Selector.Names
import StyleBlocks.Proofs.Selector.Unplaced

/-!
# The texts of conditions

The text of a condition is cut into the tokens of components from which the condition is read,
whatever follows that is not taken along.  This needs that names which are printed as they are need
no escapes, and that arguments are closed.

Main result: `Simple.spells`.
-/

namespace StyleBlocks

open Component Lexeme Token List Simple

variable {a : Attribute} {w r : List Char} {x : Simple} {argument : Option String} {name : String}

/-! ## Conditions whose names are read back -/

def Attribute.ofTest (space : Option String) (name : String) : Option AttributeTest → Attribute
  | none => ⟨space, name, none, none, false⟩
  | some t => ⟨space, name, some t.operator, some t.value, t.ignoreCase⟩

/-- The names are read back as they are, and an operator stands with a value. -/
structure Attribute.IsWellNamed (a : Attribute) : Prop where
  space : ∀ space, a.space = some space → space = "" ∨ space = "*" ∨ isIdentifier space = true
  name : isIdentifier a.name = true
  value : ∀ t, a.test = some t → NulFree t.value
  whole : a = .ofTest a.space a.name a.test

/-- The names that are printed as they are need no escapes, and what is printed is what a reader
gives: lower case, trimmed, and two colons where one says the same. -/
def Simple.IsWellNamed : Simple → Prop
  | .tag name => isIdentifier name = true
  | .universal => True
  | .className name | .id name => NulFree name ∧ name.toList ≠ []
  | .hasAttribute a => a.IsWellNamed
  | .pseudoClass name argument => isIdentifier name = true ∧ lowercase name = name ∧
      (argument = none → isOneColonElement name = false) ∧
      ∀ text, argument = some text → IsTrimmed text.toList
  | .pseudoElement name argument => isIdentifier name = true ∧ lowercase name = name ∧
      ∀ text, argument = some text → IsTrimmed text.toList

def Simple.isClosed : Simple → Bool
  | .pseudoClass name (some argument) | .pseudoElement name (some argument) =>
    isClosedArgument name argument
  | _ => true

/-- The text of a condition ends in a name. -/
def Simple.endsInName : Simple → Bool
  | .tag _ | .className _ | .id _ | .pseudoClass _ none | .pseudoElement _ none => true
  | _ => false

/-! ## Single tokens -/

namespace Lexeme

theorem cut_colon (s : List Char) : cut (':' :: s) = ⟨.colon, [':'], .nowhere⟩ :: cut s :=
  cut_mark (fun _ => rfl) s

theorem cut_square (s : List Char) : cut ('[' :: s) = ⟨.opener .square, ['['], .nowhere⟩ :: cut s :=
  cut_mark (fun _ => rfl) s

theorem cut_square_close (s : List Char) :
    cut (']' :: s) = ⟨.closer .square, [']'], .nowhere⟩ :: cut s :=
  cut_mark (fun _ => rfl) s

theorem cut_delim_writes {m : Char} (hm : m = '.' ∨ m = '|') (h : Writes w name) (hr : Follows r) :
    cut (m :: (w ++ r))
      = ⟨.delim m, [m], .nowhere⟩ :: ⟨.ident name, w, .nowhere⟩ :: cut r := by
  obtain ⟨c, s, rfl, -⟩ := h.read r hr
  have hread : read m (c :: (s ++ r)) = (.delim m, c :: (s ++ r)) := by
    rw [read_mark (by rcases hm with rfl | rfl <;> simp) (h.head c rfl), markToken, if_neg]
    rcases hm with rfl | rfl <;> decide
  rw [cons_append, cut_cons hread (w := [m]) rfl]
  exact congrArg _ (cut_writes h hr)

theorem cut_hash (h : Writes w name) (hr : Follows r) :
    cut ('#' :: (w ++ r)) = ⟨.idHash name, '#' :: w, .nowhere⟩ :: cut r := by
  obtain ⟨c, s, rfl, hread⟩ := h.read r hr
  obtain ⟨hstart, hname⟩ := readName_of_read_eq_ident hread
  have hhash : read '#' (c :: s ++ r) = readHash (c :: s ++ r) := rfl
  have htoken : read '#' (c :: s ++ r) = (.idHash name, r) := by
    rw [hhash, readHash, cons_append, hname, hstart]
    simp
  exact cut_cons htoken rfl

end Lexeme

/-! ## Strings -/

theorem readString_backslash {quote c : Char} {s rest : List Char} (hq : quote ≠ '\\') (hs : s ≠ [])
    (hnewline : startsWithNewline s = false) (he : readEscape s = (c, rest)) :
    readString quote ('\\' :: s)
      = ((readString quote rest).1, c :: (readString quote rest).2.1,
          (readString quote rest).2.2) := by
  rw [readString]
  have hne : ('\\' == quote) = false := beq_false_of_ne hq.symm
  have hempty : s.isEmpty = false := by simpa using hs
  simp [hne, hempty, hnewline, he, isNewline]

theorem readString_writeStringChar {c : Char} (hc : c ≠ '\x00') (rest : List Char) :
    readString '"' (writeStringChar c ++ rest)
      = ((readString '"' rest).1, c :: (readString '"' rest).2.1, (readString '"' rest).2.2) := by
  unfold writeStringChar
  split
  · rename_i hquote
    have hcases : c = '"' ∨ c = '\\' := by simpa using hquote
    have hescape : startsWithNewline (c :: rest) = false ∧ readEscape (c :: rest) = (c, rest) := by
      rcases hcases with rfl | rfl <;> exact ⟨rfl, rfl⟩
    exact readString_backslash (by decide) (by simp) hescape.1 hescape.2
  rename_i hquote
  split
  · rename_i hnul
    exact absurd (eq_of_beq hnul) hc
  split
  · rename_i hcontrol
    obtain ⟨hnewline, hescape⟩ := readEscape_hexEscape (.inl hcontrol) hc rest
    have htext : hexEscape c ++ rest = '\\' :: (Nat.toDigits 16 c.toNat ++ ' ' :: rest) := by
      simp [hexEscape]
    rw [htext]
    exact readString_backslash (by decide) (by simp) hnewline hescape
  · rename_i hcontrol
    have hmarks : c ≠ '"' ∧ c ≠ '\\' := by simpa using hquote
    have hnewline : isNewline c = false := by
      cases hn : isNewline c with
      | false => rfl
      | true =>
        exfalso
        apply hcontrol
        unfold isNewline at hn
        simp only [Bool.or_eq_true, beq_iff_eq] at hn
        rcases hn with (rfl | rfl) | rfl <;> rfl
    rw [singleton_append, readString]
    simp [hmarks.1, hmarks.2, hnewline, hc]

theorem readString_writeString {v : List Char} (h : '\x00' ∉ v) (rest : List Char) :
    readString '"' (v.flatMap writeStringChar ++ '"' :: rest) = (false, v, rest) := by
  induction v with
  | nil =>
    rw [flatMap_nil, nil_append, readString]
    rfl
  | cons c v ih =>
    have hc : c ≠ '\x00' := fun heq => h (heq ▸ mem_cons_self)
    rw [flatMap_cons, append_assoc, readString_writeStringChar hc,
      ih fun hv => h (mem_cons_of_mem c hv)]

/-! ## Attributes -/

/-- A token that is no bracket. -/
def Token.IsPlain (t : Token) : Prop :=
  t.opens = none ∧ t.closes = none

def Attribute.nameText (a : Attribute) : List Char :=
  (a.space.map fun space => space.toList ++ ['|']).getD [] ++ a.name.toList

def AttributeTest.valueText (t : AttributeTest) : List Char :=
  if isIdentifier t.value then t.value.toList else writeString t.value.toList

def AttributeTest.text (t : AttributeTest) : List Char :=
  t.operator.symbol.toList ++ (t.valueText ++ if t.ignoreCase then [' ', 'i'] else [])

theorem Attribute.toList_render (a : Attribute) :
    a.render.toList = '[' :: (a.nameText ++ ((a.test.map AttributeTest.text).getD [] ++ [']'])) := by
  unfold Attribute.render Attribute.nameText
  rcases a.space with _ | space <;> rcases a.test with _ | ⟨operator, value, ignoreCase⟩
  · simp
  · cases hvalue : isIdentifier value <;> cases ignoreCase <;>
      simp [AttributeTest.text, AttributeTest.valueText, hvalue]
  · simp
  · cases hvalue : isIdentifier value <;> cases ignoreCase <;>
      simp [AttributeTest.text, AttributeTest.valueText, hvalue]

theorem follows_of_head {a : Char} (h : isNameChar a = false) (hb : a ≠ '\\') (hn : a ≠ '\x00')
    (hp : a ≠ '(') (hg : a ≠ '>') (s : List Char) : Follows (a :: s) :=
  ⟨endsName_cons h hb hn, by simpa using hp, by simpa using hg⟩

/-- A token that is neither a bracket nor a comment. -/
def Token.IsSimple (t : Token) : Prop :=
  t.IsPlain ∧ t.isComment = false

theorem exists_cut_nameText (h : a.IsWellNamed) (hr : Follows r) :
    ∃ ls : List Lexeme, (∀ l ∈ ls, l.token.IsSimple) ∧
      cut (a.nameText ++ r) = ls ++ cut r ∧
      Attribute.NameIsWritten (ls.map .leaf) a.space a.name := by
  have hname := writes_identifier h.name
  unfold Attribute.nameText
  cases hspace : a.space with
  | none =>
    refine ⟨[⟨.ident a.name, a.name.toList, .nowhere⟩], ?_, ?_, .plain rfl⟩
    · simp [IsSimple, IsPlain, opens, closes, Token.isComment]
    · simp [cut_writes hname hr]
  | some space =>
    rcases h.space space hspace with rfl | rfl | hidentifier
    · refine ⟨[⟨.delim '|', ['|'], .nowhere⟩, ⟨.ident a.name, a.name.toList, .nowhere⟩], ?_, ?_,
        .inNoSpace rfl rfl⟩
      · simp [IsSimple, IsPlain, opens, closes, Token.isComment]
      · simp [cut_delim_writes (.inr rfl) hname hr]
    · refine ⟨[⟨.delim '*', ['*'], .nowhere⟩, ⟨.delim '|', ['|'], .nowhere⟩,
        ⟨.ident a.name, a.name.toList, .nowhere⟩], ?_, ?_, .inAnySpace rfl spaces_nil rfl rfl⟩
      · simp [IsSimple, IsPlain, opens, closes, Token.isComment]
      · have hstar : ∀ s, read '*' ('|' :: s) = (.delim '*', '|' :: s) := fun _ => rfl
        simp [cut_cons (hstar _) (w := ['*']) rfl, cut_delim_writes (.inr rfl) hname hr]
    · refine ⟨[⟨.ident space, space.toList, .nowhere⟩, ⟨.delim '|', ['|'], .nowhere⟩,
        ⟨.ident a.name, a.name.toList, .nowhere⟩], ?_, ?_, .inSpace rfl rfl rfl⟩
      · simp [IsSimple, IsPlain, opens, closes, Token.isComment]
      · have hbar : Follows ('|' :: (a.name.toList ++ r)) := follows_mark (by simp) _
        simp [cut_writes (writes_identifier hidentifier) hbar, cut_delim_writes (.inr rfl) hname hr]

def operatorToken : AttributeMatcher → Token
  | .equals => .delim '='
  | .includes => .includeMatch
  | .dashMatch => .dashMatch
  | .prefixMatch => .prefixMatch
  | .suffixMatch => .suffixMatch
  | .substringMatch => .substringMatch

theorem exists_cut_operator (k : AttributeMatcher) : ∃ t : Token, t.IsSimple ∧
    attributeMatcher? t = some k ∧ ∀ s, cut (k.symbol.toList ++ s)
      = ⟨t, k.symbol.toList, .nowhere⟩ :: cut s := by
  refine ⟨operatorToken k, ?_⟩
  cases k <;> exact ⟨⟨⟨rfl, rfl⟩, rfl⟩, rfl, fun s => cut_cons rfl rfl⟩

theorem exists_cut_valueText {t : AttributeTest} (h : NulFree t.value) (hr : Follows r) :
    ∃ v : Token, v.IsSimple ∧ attributeValue? v = some t.value ∧
      cut (t.valueText ++ r) = ⟨v, t.valueText, .nowhere⟩ :: cut r := by
  unfold AttributeTest.valueText
  split
  · rename_i hidentifier
    exact ⟨.ident t.value, ⟨⟨rfl, rfl⟩, rfl⟩, rfl, cut_writes (writes_identifier hidentifier) hr⟩
  refine ⟨.string t.value, ⟨⟨rfl, rfl⟩, rfl⟩, rfl, ?_⟩
  have hread : read '"' (t.value.toList.flatMap writeStringChar ++ '"' :: r)
      = (.string t.value, r) := by
    have hquoted : ∀ s, read '"' s = readQuoted '"' s := fun _ => rfl
    rw [hquoted, readQuoted, readString_writeString h]
    simp
  have htext : writeString t.value.toList ++ r
      = '"' :: (t.value.toList.flatMap writeStringChar ++ '"' :: r) := by simp [writeString]
  rw [htext]
  exact cut_cons hread (by simp [writeString])

def caseFlag (ignoreCase : Bool) : List Lexeme :=
  if ignoreCase then [⟨.space " ", [' '], .nowhere⟩, ⟨.ident "i", ['i'], .nowhere⟩] else []

theorem cut_caseFlag (ignoreCase : Bool) (r : List Char) :
    cut ((if ignoreCase then [' ', 'i'] else []) ++ ']' :: r)
      = caseFlag ignoreCase ++ cut (']' :: r) := by
  cases ignoreCase with
  | false => rfl
  | true =>
    have hspace := cut_spaces (s := 'i' :: ']' :: r) (cons_ne_nil ' ' [])
      (forall_mem_singleton.2 rfl) (by simp; decide)
    have hidentifier : isIdentifier "i" = true := by decide +kernel
    have hletter := cut_writes (writes_identifier hidentifier) (follows_mark (c := ']') (by simp) r)
    exact hspace.trans (congrArg _ hletter)

theorem isSimple_of_mem_caseFlag {ignoreCase : Bool} {l : Lexeme} (h : l ∈ caseFlag ignoreCase) :
    l.token.IsSimple := by
  cases ignoreCase with
  | false => cases h
  | true =>
    rcases mem_cons.1 h with rfl | h
    · exact ⟨⟨rfl, rfl⟩, rfl⟩
    · rw [mem_singleton.1 h]
      exact ⟨⟨rfl, rfl⟩, rfl⟩

theorem flagIsWritten_caseFlag (ignoreCase : Bool) :
    Attribute.FlagIsWritten ((caseFlag ignoreCase).map .leaf) ignoreCase := by
  cases ignoreCase with
  | false => exact .absent
  | true =>
    have hspace : Spaces [.leaf ⟨.space " ", [' '], .nowhere⟩] := forall_mem_singleton.2 rfl
    exact .ignoreCase hspace rfl (show sameIgnoringCase "i" "i" = true by simp [sameIgnoringCase])

/-- **The text of an attribute is cut into the tokens of a block.** -/
theorem exists_cut_attribute (h : a.IsWellNamed) (r : List Char) :
    ∃ ls : List Lexeme, (∀ l ∈ ls, l.token.IsSimple) ∧ Attribute.IsWritten (ls.map .leaf) a ∧
      cut (a.render.toList ++ r) = ⟨.opener .square, ['['], .nowhere⟩ ::
        (ls ++ ⟨.closer .square, [']'], .nowhere⟩ :: cut r) := by
  have htext : a.render.toList ++ r = '[' :: (a.nameText
      ++ ((a.test.map AttributeTest.text).getD [] ++ ']' :: r)) := by
    simp [a.toList_render]
  rw [htext, cut_square]
  have hwhole := h.whole
  cases ht : a.test with
  | none =>
    rw [ht] at hwhole
    obtain ⟨ls, hsimple, hcut, hname⟩ := exists_cut_nameText h (follows_mark (c := ']') (by simp) r)
    refine ⟨ls, hsimple, ?_, ?_⟩
    · rw [hwhole]
      simpa [Attribute.ofTest] using Attribute.IsWritten.bare spaces_nil hname spaces_nil
    · rw [Option.map_none, Option.getD_none, nil_append, hcut, cut_square_close]
  | some t =>
    rw [ht] at hwhole
    obtain ⟨k, hk, hoperator, hkcut⟩ := exists_cut_operator t.operator
    obtain ⟨v, hv, hvalue, hvcut⟩ := exists_cut_valueText (h.value t ht)
      (r := (if t.ignoreCase then [' ', 'i'] else []) ++ ']' :: r) (by
        cases t.ignoreCase with
        | false => exact follows_mark (by simp) r
        | true => exact follows_of_head (by decide) (by decide) (by decide) (by decide) (by decide) _)
    obtain ⟨ls, hsimple, hcut, hname⟩ := exists_cut_nameText h (r := t.text ++ ']' :: r) (by
        unfold AttributeTest.text
        cases t.operator <;>
          exact follows_of_head (by decide) (by decide) (by decide) (by decide) (by decide) _)
    have htest : cut (t.text ++ ']' :: r) = ⟨k, t.operator.symbol.toList, .nowhere⟩ ::
        ⟨v, t.valueText, .nowhere⟩ :: (caseFlag t.ignoreCase ++ cut (']' :: r)) := by
      rw [AttributeTest.text, append_assoc, hkcut, append_assoc, hvcut, cut_caseFlag]
    refine ⟨ls ++ ⟨k, t.operator.symbol.toList, .nowhere⟩ :: ⟨v, t.valueText, .nowhere⟩ ::
      caseFlag t.ignoreCase, ?_, ?_, ?_⟩
    · exact forall_mem_append.2 ⟨hsimple, forall_mem_cons.2 ⟨hk,
        forall_mem_cons.2 ⟨hv, fun l hl => isSimple_of_mem_caseFlag hl⟩⟩⟩
    · have hwritten := Attribute.IsWritten.test spaces_nil hname spaces_nil
        (c := .leaf ⟨k, t.operator.symbol.toList, .nowhere⟩) hoperator spaces_nil
        (v := .leaf ⟨v, t.valueText, .nowhere⟩) hvalue (flagIsWritten_caseFlag t.ignoreCase)
        spaces_nil
      rw [hwhole]
      simpa [Attribute.ofTest] using hwritten
    · rw [Option.map_some, Option.getD_some, hcut, htest, cut_square_close]
      simp

/-! ## Conditions -/

/-- Before `r`, the text `w` is cut into the tokens of components that the condition `x` is written
with. -/
def Spells (w r : List Char) (x : Simple) : Prop :=
  ∃ part, Simple.IsWritten part x ∧ Component.AllFit none part ∧
    Lexeme.cut (w ++ r) = Component.flatOf part ++ Lexeme.cut r

theorem Spells.group (h : Spells w r x) : ∃ part, IsWritten part x ∧ (∀ c ∈ part, c.IsGrouped) ∧
      componentsOf (w ++ r) = part ++ componentsOf r := by
  obtain ⟨part, hwritten, hfit, hcut⟩ := h
  have hgroup : componentsOf (w ++ r) = part ++ componentsOf r := by
    rw [componentsOf, hcut, group_append .nowhere hfit, componentsOf]
  refine ⟨part, hwritten, fun c hc => isGrouped_componentsOf (w ++ r) c ?_, hgroup⟩
  rw [hgroup]
  exact mem_append_left _ hc

theorem allFit_leaves {ls : List Lexeme} (h : ∀ l ∈ ls, l.token.IsPlain) (outer : Option Bracket) :
    AllFit outer (ls.map .leaf) ∧ flatOf (ls.map .leaf) = ls := by
  induction ls with
  | nil => exact ⟨by rw [map_nil, AllFit]; trivial, rfl⟩
  | cons l ls ih =>
    obtain ⟨hfit, hflat⟩ := ih fun l hl => h l (mem_cons_of_mem _ hl)
    have hl := h l mem_cons_self
    rw [map_cons, AllFit, flatOf, hflat, flat]
    exact ⟨⟨fits_leaf hl.1 hl.2, hfit⟩, rfl⟩

section

theorem spells_leaves (ls : List Lexeme) (hplain : ∀ l ∈ ls, l.token.IsPlain)
    (hread : IsWritten (ls.map .leaf) x) (hcut : cut (w ++ r) = ls ++ cut r) :
    Spells w r x := by
  obtain ⟨hfit, hflat⟩ := allFit_leaves hplain none
  exact ⟨_, hread, hfit, by rw [hflat, hcut]⟩

theorem spells_tag (h : isIdentifier name = true) (hr : Follows r) :
    Spells name.toList r (.tag name) :=
  spells_leaves [⟨.ident name, name.toList, .nowhere⟩] (by simp [IsPlain, opens, closes]) (.tag rfl)
    (cut_writes (writes_identifier h) hr)

theorem spells_universal (hr : r.head? ≠ some '=') : Spells ['*'] r .universal := by
  refine spells_leaves [⟨.delim '*', ['*'], .nowhere⟩]
    (by simp [IsPlain, opens, closes]) (.universal rfl) ?_
  have hread : read '*' r = (.delim '*', r) := by
    have hmark : read '*' r = readPair '*' '=' .substringMatch r := rfl
    rw [hmark]
    cases r with
    | nil => rfl
    | cons c r =>
      have hc : (c == '=') = false := beq_false_of_ne fun heq => hr (by rw [heq]; rfl)
      rw [readPair, hc]
      rfl
  exact cut_cons hread rfl

theorem spells_className (hnul : NulFree name) (hne : name.toList ≠ []) (hr : Follows r) :
    Spells ('.' :: writeIdentifier name.toList) r (.className name) :=
  spells_leaves [⟨.delim '.', ['.'], .nowhere⟩,
      ⟨.ident name, writeIdentifier name.toList, .nowhere⟩]
    (by simp [IsPlain, opens, closes]) (.className rfl rfl)
    (cut_delim_writes (.inl rfl) (writes_writeIdentifier hnul hne) hr)

theorem spells_id (hnul : NulFree name) (hne : name.toList ≠ []) (hr : Follows r) :
    Spells ('#' :: writeIdentifier name.toList) r (.id name) :=
  spells_leaves [⟨.idHash name, '#' :: writeIdentifier name.toList, .nowhere⟩]
    (by simp [IsPlain, opens, closes]) (.id rfl)
    (cut_hash (writes_writeIdentifier hnul hne) hr)

theorem spells_attribute (h : a.IsWellNamed) (r : List Char) :
    Spells a.render.toList r (.hasAttribute a) := by
  obtain ⟨ls, hsimple, hwritten, hcut⟩ := exists_cut_attribute h r
  obtain ⟨hfit, hflat⟩ := allFit_leaves (fun l hl => (hsimple l hl).1) (some .square)
  have hcomments : uncommented (ls.map .leaf) = ls.map .leaf := by
    refine filter_eq_self.2 fun c hc => ?_
    obtain ⟨l, hl, rfl⟩ := mem_map.1 hc
    exact congrArg (! ·) (hsimple l hl).2
  refine ⟨[.block ⟨.opener .square, ['['], .nowhere⟩ .square (ls.map .leaf) .nowhere [']']],
    .hasAttribute (hcomments.symm ▸ hwritten), ?_, ?_⟩
  · rw [allFit_singleton, Fits]
    exact ⟨rfl, by simp, hfit⟩
  · rw [hcut, flatOf_singleton, flat, closing, if_neg (by simp), hflat]
    simp

/-! ## Pseudo-classes and pseudo-elements -/

theorem exists_cut_named (h : isIdentifier name = true) (argument : Option String)
    (hargument : ∀ text, argument = some text → IsTrimmed text.toList ∧
      isClosedArgument name text = true) (hr : argument = none → Follows r) :
    ∃ c : Component, c.Fits none ∧ c.Names name argument ∧
      cut (name.toList ++ ((renderArgument argument).toList ++ r)) = c.flat ++ cut r := by
  cases argument with
  | none =>
    refine ⟨.leaf ⟨.ident name, name.toList, .nowhere⟩, fits_leaf rfl rfl, .plain rfl, ?_⟩
    exact cut_writes (writes_identifier h) (hr rfl)
  | some text =>
    obtain ⟨htrim, hclosed⟩ := hargument text rfl
    obtain ⟨body, hbody, htext, hcut⟩ := exists_cut_argument h htrim hclosed r
    have hnames : Names (.block ⟨.function name, name.toList ++ ['('], .nowhere⟩ .round
      body .nowhere [')']) name _ := .function rfl
    rw [argumentOf, htext, trim_of_isTrimmed htrim, String.ofList_toList] at hnames
    refine ⟨_, ?_, hnames, ?_⟩
    · exact ⟨rfl, by simp, hbody⟩
    · rw [← flatOf_singleton, ← hcut]
      simp [renderArgument]

theorem spells_pseudoClass (h : (pseudoClass name argument).IsWellNamed)
    (hclosed : (pseudoClass name argument).isClosed = true) (hr : argument = none → Follows r) :
    Spells (':' :: (name.toList ++ (renderArgument argument).toList)) r
      (.pseudoClass name argument) := by
  obtain ⟨hname, hlower, hone, htrim⟩ := h
  obtain ⟨c, hfits, hnames, hcut⟩ := exists_cut_named hname argument (fun text heq => by
    subst heq
    exact ⟨htrim text rfl, hclosed⟩) hr
  have hwritten : IsWritten [.leaf ⟨.colon, [':'], .nowhere⟩, c] _ :=
    .pseudoClass rfl hnames hone
  rw [hlower] at hwritten
  refine ⟨_, hwritten, ?_, ?_⟩
  · rw [AllFit, allFit_singleton]
    exact ⟨fits_leaf rfl rfl, hfits⟩
  · rw [cons_append, append_assoc, cut_colon, hcut, flatOf, flatOf_singleton, flat]
    rfl

theorem spells_pseudoElement (h : (pseudoElement name argument).IsWellNamed)
    (hclosed : (pseudoElement name argument).isClosed = true) (hr : argument = none → Follows r) :
    Spells (':' :: ':' :: (name.toList ++ (renderArgument argument).toList)) r
      (.pseudoElement name argument) := by
  obtain ⟨hname, hlower, htrim⟩ := h
  obtain ⟨c, hfits, hnames, hcut⟩ := exists_cut_named hname argument (fun text heq => by
    subst heq
    exact ⟨htrim text rfl, hclosed⟩) hr
  have hwritten : IsWritten [.leaf ⟨.colon, [':'], .nowhere⟩,
    .leaf ⟨.colon, [':'], .nowhere⟩, c] _ := .pseudoElement rfl rfl hnames
  rw [hlower] at hwritten
  refine ⟨_, hwritten, ?_, ?_⟩
  · rw [AllFit, AllFit, allFit_singleton]
    exact ⟨fits_leaf rfl rfl, fits_leaf rfl rfl, hfits⟩
  · rw [cons_append, cons_append, append_assoc, cut_colon, cut_colon,
      hcut, flatOf, flatOf, flatOf_singleton, flat]
    rfl

end

/-- **The text of a condition is read as the condition**, if its argument is closed and what follows
does not go on with its last name. -/
theorem Simple.spells (h : x.IsWellNamed) (hclosed : x.isClosed = true)
    (hr : x.endsInName = true → Follows r) (heq : r.head? ≠ some '=') :
    Spells x.render.toList r x := by
  cases x with
  | tag name => exact spells_tag h (hr rfl)
  | universal => exact spells_universal heq
  | className name =>
    have htext : (Simple.className name).render.toList = '.' :: writeIdentifier name.toList := by
      simp [Simple.render]
    rw [htext]
    exact spells_className h.1 h.2 (hr rfl)
  | id name =>
    have htext : (Simple.id name).render.toList = '#' :: writeIdentifier name.toList := by
      simp [Simple.render]
    rw [htext]
    exact spells_id h.1 h.2 (hr rfl)
  | hasAttribute a => exact spells_attribute h r
  | pseudoClass name argument =>
    rw [Simple.render, String.toList_append, String.toList_append, append_assoc]
    exact spells_pseudoClass h hclosed fun hnone => hr (by rw [hnone]; rfl)
  | pseudoElement name argument =>
    rw [Simple.render, String.toList_append, String.toList_append, append_assoc]
    exact spells_pseudoElement h hclosed fun hnone => hr (by rw [hnone]; rfl)

end StyleBlocks
