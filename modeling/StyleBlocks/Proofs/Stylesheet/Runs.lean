import StyleBlocks.Proofs.Stylesheet.Statements
import StyleBlocks.Proofs.Token.Trailing

/-!
# Runs of components

The components of a statement, up to its body, its semicolon or the end of its level, are read as
they stand (`Run`), and so are those between two brackets (`Stretch`).  The text that is kept of them
is trimmed, and it is a fragment again: the spaces around it are tokens of their own, or belong to an
escape, which is the same without them.

* `Run.readsSelector_preludeText`, `Run.readsParams_preludeText`, `Run.readsParams_spanText`: **the
  texts that are kept are read back.**
-/

namespace StyleBlocks

open Component List Lexeme

variable {c : Component} {l : Lexeme} {s : List Char} {v : String} {outer : Option Bracket}
  {r : List Char}

/-! ## Tidy texts -/

def dropSpacesEnd (s : List Char) : List Char :=
  (s.reverse.dropWhile isSpace).reverse

/-- A token that is no string broken off by a line end, and that has no other blanks at its ends than
spaces behind it. -/
def Lexeme.isTidy (l : Lexeme) : Bool :=
  match l.token with
  | .badString _ => false
  | _ => trim l.text == dropSpacesEnd l.text

theorem dropSpacesEnd_of_isTrimmed (h : IsTrimmed s) : dropSpacesEnd s = s := by
  rw [dropSpacesEnd, dropWhile_of_head?, reverse_reverse]
  intro c hc
  rw [head?_reverse] at hc
  exact isSpace_of_not_isBlank (h.last c hc)

def Component.isSpaces (c : Component) : Bool :=
  match c.token with
  | .space _ => true
  | _ => false

namespace Component

theorem isSpaces_iff : c.isSpaces = true ↔ ∃ v, c.token = .space v := by
  unfold isSpaces
  split
  · rename_i v htoken
    exact ⟨fun _ => ⟨v, htoken⟩, fun _ => rfl⟩
  rename_i hne
  constructor
  · intro h
    cases h
  · rintro ⟨v, hv⟩
    exact absurd hv (hne v)

theorem isFiller_of_isSpaces (h : c.isSpaces = true) : c.isFiller = true := by
  obtain ⟨v, htoken⟩ := isSpaces_iff.1 h
  rw [isFiller, htoken]
  rfl

theorem ne_space_of_isSpaces (h : c.isSpaces = false) (v : String) : c.token ≠ .space v := by
  intro htoken
  rw [isSpaces_iff.2 ⟨v, htoken⟩] at h
  cases h

end Component

namespace Lexeme

theorem isTidy_iff : l.isTidy = true ↔
    (∀ v, l.token ≠ .badString v) ∧ trim l.text = dropSpacesEnd l.text := by
  unfold isTidy
  cases l.token with
  | badString v => exact ⟨nofun, fun h => absurd rfl (h.1 v)⟩
  | _ => exact ⟨fun h => ⟨nofun, eq_of_beq h⟩, fun h => beq_iff_eq.2 h.2⟩

theorem cut_flatMap_text {ls ls' : List Lexeme} (h : cut s = ls ++ ls') :
    cut (ls'.flatMap text) = ls' := by
  induction ls generalizing s with
  | nil =>
    rw [nil_append] at h
    rw [← h, flatMap_text_cut]
  | cons l ls ih =>
    obtain ⟨c, w, rest, -, -, -, hrest⟩ := exists_of_cut_eq_cons h
    exact ih hrest

theorem reads_of_mem_cut (h : l ∈ cut s) : ∃ c w rest,
    l.text = c :: w ∧ Token.read c (w ++ rest) = (l.token, rest) := by
  obtain ⟨init, ls, hsplit⟩ := append_of_mem h
  obtain ⟨c, w, rest, -, hread, hl, -⟩ := exists_of_cut_eq_append hsplit
  exact ⟨c, w, rest, by rw [hl], hread⟩

theorem text_of_closer (h : l ∈ cut s) {b : Bracket} (hl : l.token = .closer b) :
    l.text = [b.closing] := by
  obtain ⟨c, w, rest, htext, hread⟩ := reads_of_mem_cut h
  have hreads := Token.reads_read c (w ++ rest)
  rw [hread, hl] at hreads
  obtain ⟨rfl, hrest⟩ := hreads
  rw [htext, self_eq_append_left.1 hrest]

theorem not_isInfix_of_comment (h : l ∈ cut s) (hl : l.token = .comment v) :
    ¬ ['*', '/'] <:+: v.toList := by
  obtain ⟨c, w, rest, -, hread⟩ := reads_of_mem_cut h
  have hreads := Token.reads_read c (w ++ rest)
  rw [hread, hl] at hreads
  obtain ⟨-, t, -, ht⟩ := hreads
  have hinfix := not_isInfix_readComment t
  rwa [ht] at hinfix

theorem isSpace_of_mem_text (h : l ∈ cut s) (hl : l.token = .space v) :
    ∀ c ∈ l.text, isSpace c = true := by
  obtain ⟨c, w, rest, htext, hread⟩ := reads_of_mem_cut h
  have hreads := Token.reads_read c (w ++ rest)
  rw [hread, hl] at hreads
  obtain ⟨hc, hrest⟩ := hreads
  have hw : w = (w ++ rest).takeWhile isSpace := by
    have happend := takeWhile_append_dropWhile (p := isSpace) (l := w ++ rest)
    rw [← hrest] at happend
    exact (append_cancel_right happend).symm
  rw [htext]
  intro d hd
  rcases mem_cons.1 hd with rfl | hd
  · exact hc
  · rw [hw] at hd
    exact all_eq_true.1 all_takeWhile d hd

/-- **A tidy token is a text without outer blanks, and spaces behind it.** -/
theorem exists_of_isTidy (hmem : l ∈ cut s) (h : l.isTidy = true) (hspace : ∀ v, l.token ≠ .space v) :
    ∃ w spaces, l.text = w ++ spaces ∧ w ≠ [] ∧ IsTrimmed w ∧ ∀ c ∈ spaces, isSpace c = true := by
  have htrim := (isTidy_iff.1 h).2
  have htext : l.text = dropSpacesEnd l.text ++ (l.text.reverse.takeWhile isSpace).reverse := by
    rw [dropSpacesEnd, ← reverse_append, takeWhile_append_dropWhile, reverse_reverse]
  refine ⟨_, _, htext, fun hnil => ?_, htrim ▸ isTrimmed_trim l.text, fun c hc => ?_⟩
  · -- a token of spaces is a space
    rw [dropSpacesEnd, reverse_eq_nil_iff, dropWhile_eq_nil_iff] at hnil
    obtain ⟨c, w, rest, hl, hread⟩ := reads_of_mem_cut hmem
    rw [Token.read_of_isSpace (hnil c (by rw [hl]; simp)), Prod.mk.injEq] at hread
    exact hspace _ hread.1.symm
  · exact all_eq_true.1 all_takeWhile c (mem_reverse.1 hc)

end Lexeme

/-! ## Runs of components between others -/

theorem Component.cut_textOf_append {cs ds : List Component}
    (h : cut (textOf (cs ++ ds) ++ r) = flatOf (cs ++ ds) ++ cut r) :
    cut (textOf cs ++ (textOf ds ++ r)) = flatOf cs ++ cut (textOf ds ++ r) ∧
      cut (textOf ds ++ r) = flatOf ds ++ cut r := by
  rw [textOf_append, flatOf_append, append_assoc, append_assoc] at h
  have hright := cut_flatMap_text h
  rw [flatMap_append, flatMap_text_flatOf, flatMap_text_cut] at hright
  exact ⟨by rw [h, hright], hright⟩

/-- Components that fit inside the bracket `outer` and are read as they stand before `r`, with tidy
tokens. -/
structure Stretch (outer : Option Bracket) (cs : List Component) (r : List Char) : Prop where
  reads : Lexeme.cut (Component.textOf cs ++ r) = Component.flatOf cs ++ Lexeme.cut r
  fits : Component.AllFit outer cs
  tidy : ∀ l ∈ Component.flatOf cs, l.isTidy = true

theorem exists_inner {α : Type} (p : α → Bool) (xs : List α) : ∃ before inner behind,
    xs = before ++ inner ++ behind ∧ (∀ x ∈ before, p x = true) ∧ (∀ x ∈ behind, p x = true) ∧
      (∀ x, inner.head? = some x → p x = false) ∧ ∀ x, inner.getLast? = some x → p x = false := by
  have hnot : ∀ (ys : List α) (x : α), (ys.dropWhile p).head? = some x → p x = false := by
    intro ys x hx
    have hhead := head?_dropWhile_not p ys
    rw [hx] at hhead
    simpa using hhead
  have htake : ∀ (ys : List α), ∀ x ∈ ys.takeWhile p, p x = true :=
    fun ys x hx => all_eq_true.1 all_takeWhile x hx
  have hys : xs.dropWhile p = ((xs.dropWhile p).reverse.dropWhile p).reverse
      ++ ((xs.dropWhile p).reverse.takeWhile p).reverse := by
    rw [← reverse_append, takeWhile_append_dropWhile, reverse_reverse]
  refine ⟨xs.takeWhile p, ((xs.dropWhile p).reverse.dropWhile p).reverse,
    ((xs.dropWhile p).reverse.takeWhile p).reverse, ?_, htake xs,
    fun x hx => htake _ x (mem_reverse.1 hx), fun x hx => ?_, fun x hx => ?_⟩
  · rw [append_assoc, ← hys, takeWhile_append_dropWhile]
  · apply hnot xs x
    obtain ⟨w, hw⟩ := head?_eq_some_iff.1 hx
    rw [hys, hw]
    rfl
  · rw [getLast?_reverse] at hx
    exact hnot _ x hx

theorem head?_inner {α : Type} {p : α → Bool} {before inner behind : List α}
    (hbefore : ∀ x ∈ before, p x = true) (hbehind : ∀ x ∈ behind, p x = true) {x : α}
    (h : (before ++ inner ++ behind).head? = some x) (hx : p x = false) : inner.head? = some x := by
  have hne : p x ≠ true := by simp [hx]
  cases before with
  | cons y before =>
    obtain rfl : y = x := Option.some.inj h
    exact absurd (hbefore y mem_cons_self) hne
  | nil =>
    cases inner with
    | nil => exact absurd (hbehind x (mem_of_head? h)) hne
    | cons y inner => exact h

namespace Stretch

variable {cs ds : List Component}

theorem left (h : Stretch outer (cs ++ ds) r) : Stretch outer cs (textOf ds ++ r) := by
  refine ⟨(cut_textOf_append h.reads).1, (allFit_append.1 h.fits).1, fun l hl => h.tidy l ?_⟩
  rw [flatOf_append]
  exact mem_append_left _ hl

theorem right (h : Stretch outer (cs ++ ds) r) : Stretch outer ds r := by
  refine ⟨(cut_textOf_append h.reads).2, (allFit_append.1 h.fits).2, fun l hl => h.tidy l ?_⟩
  rw [flatOf_append]
  exact mem_append_right _ hl

theorem mem_cut (h : Stretch outer cs r) (hl : l ∈ flatOf cs) : l ∈ cut (textOf cs ++ r) := by
  rw [h.reads]
  exact mem_append_left _ hl

theorem exists_leaf (h : Stretch outer cs r) (hc : c ∈ cs) (hfiller : c.isFiller = true) :
    ∃ l, c = .leaf l ∧ l ∈ flatOf cs := by
  have hmem := lexeme_mem_flatOf hc
  have hfits := allFit_iff.1 h.fits c hc
  cases c with
  | leaf l => exact ⟨l, rfl, hmem⟩
  | block l b body stop close =>
    rw [Fits] at hfits
    have hfiller : l.token.isFiller = true := hfiller
    cases htoken : l.token with
    | opener | function =>
      rw [htoken] at hfiller
      cases hfiller
    | _ =>
      rw [htoken] at hfits
      cases hfits.1

theorem isSpace_of_mem (h : Stretch outer cs r) (hcs : ∀ c ∈ cs, c.isSpaces = true) :
    ∀ a ∈ textOf cs, isSpace a = true := by
  intro a ha
  rw [← flatMap_text_flatOf, mem_flatMap] at ha
  obtain ⟨l, hl, ha⟩ := ha
  obtain ⟨c, hc, hlc⟩ := mem_flatOf_iff.1 hl
  have hspaces := hcs c hc
  unfold isSpaces at hspaces
  split at hspaces
  · rename_i v htoken
    obtain ⟨l', rfl, -⟩ := h.exists_leaf hc (by rw [isFiller, htoken]; rfl)
    rw [flat, mem_singleton] at hlc
    subst hlc
    exact isSpace_of_mem_text (h.mem_cut hl) htoken a ha
  · cases hspaces

theorem endsToken (h : Stretch outer cs r) (hr : EndsToken r) (hcs : ∀ c ∈ cs, c.isFiller = true) :
    EndsToken (textOf cs ++ r) := by
  cases cs with
  | nil => exact hr
  | cons c cs =>
    have hfiller := hcs c (by simp)
    obtain ⟨l, rfl, hl⟩ := h.exists_leaf mem_cons_self hfiller
    obtain ⟨a, w, rest, htext, hread⟩ := reads_of_mem_cut (h.mem_cut hl)
    have hreads := Token.reads_read a (w ++ rest)
    rw [hread] at hreads
    rw [textOf, Component.text, htext]
    have hfiller : l.token.isFiller = true := hfiller
    cases htoken : l.token with
    | space v =>
      rw [htoken] at hreads
      refine endsToken_cons (stop_of_isSpace hreads.1) ?_ _
      rintro rfl
      exact absurd hreads.1 (by decide)
    | comment v =>
      rw [htoken] at hreads
      obtain ⟨rfl, -⟩ := hreads
      exact endsToken_cons (stop_of_mem (by simp)) (by decide) _
    | _ =>
      rw [htoken] at hfiller
      cases hfiller

end Stretch

/-- The components with the spaces at the ends of their text taken away. -/
structure Inner (outer : Option Bracket) (cs inner : List Component) : Prop
    extends Stretch outer inner [';'] where
  firm : ∀ l, (Component.flatOf inner).getLast? = some l → l.token.isFirm = true
  isTrimmed : IsTrimmed (Component.textOf inner)
  trim : trim (Component.textOf cs) = Component.textOf inner
  mem : ∀ c ∈ inner, ∃ d ∈ cs, d.token = c.token
  space : ∀ c, inner.getLast? = some c → c.isSpaces = false
  head : ∀ c, cs.head? = some c → c.isSpaces = false → ∃ d, inner.head? = some d ∧ d.token = c.token
  last : ∀ c, cs.getLast? = some c → c.isSpaces = false →
    ∃ d, inner.getLast? = some d ∧ d.token = c.token

namespace Stretch

theorem head?_textOf (h : Stretch outer cs r) (hhead : ∀ c, cs.head? = some c → c.isSpaces = false) :
    ∀ a, (textOf cs).head? = some a → isBlank a = false := by
  intro a ha
  cases cs with
  | nil => cases ha
  | cons c cs =>
    have hmem := lexeme_mem_flatOf (mem_cons_self (a := c) (l := cs))
    obtain ⟨w, spaces, htext, hw, htrimmed, -⟩ := exists_of_isTidy (h.mem_cut hmem)
      (h.tidy _ hmem) (ne_space_of_isSpaces (hhead c rfl))
    obtain ⟨w', hw'⟩ := c.exists_text_eq
    apply htrimmed.head a
    rwa [textOf, hw', htext, append_assoc, append_assoc, head?_append_of_ne_nil _ hw] at ha

/-- The last token of a run, if it is no space: no spaces stand at its end, unless it is the last
component. -/
theorem exists_last {init : List Component} (h : Stretch outer (init ++ [c]) r)
    (hc : c.isSpaces = false) :
    ∃ ls l w spaces, c.flat = ls ++ [l] ∧ l.text = w ++ spaces ∧ w ≠ [] ∧
      IsTrimmed w ∧ (∀ a ∈ spaces, isSpace a = true) ∧ (spaces ≠ [] → c = .leaf l) ∧
      (w.getLast? ≠ some '\\' → l.token.isFirm = true) := by
  have hfits := allFit_singleton.1 (allFit_append.1 h.fits).2
  obtain ⟨ls, l, hflat, hl⟩ : ∃ ls l, c.flat = ls ++ [l] ∧ (c = .leaf l ∨ ∃ b, l.token = .closer b) := by
    cases c with
    | leaf l => exact ⟨[], l, rfl, .inl rfl⟩
    | block l b body stop close =>
      refine ⟨l :: flatOf body, ⟨.closer b, close, stop⟩, ?_, .inr ⟨b, rfl⟩⟩
      rw [flat, closing, if_neg hfits.2.1, cons_append]
  have hmem : l ∈ flatOf (init ++ [c]) := by
    rw [flatOf_append, flatOf_singleton, hflat]
    simp
  have hspace : ∀ v, l.token ≠ .space v := by
    rcases hl with rfl | ⟨b, hb⟩
    · exact ne_space_of_isSpaces hc
    · rw [hb]
      exact fun _ => nofun
  obtain ⟨w, spaces, htext, hw, htrimmed, hspaces⟩ :=
    exists_of_isTidy (h.mem_cut hmem) (h.tidy l hmem) hspace
  refine ⟨ls, l, w, spaces, hflat, htext, hw, htrimmed, hspaces, fun hne => ?_, fun hlast => ?_⟩
  · rcases hl with hleaf | ⟨b, hb⟩
    · exact hleaf
    have hlen := congrArg length htext
    rw [text_of_closer (h.mem_cut hmem) hb, length_append, length_singleton] at hlen
    have h₁ := length_pos_iff.2 hw
    have h₂ := length_pos_iff.2 hne
    omega
  · cases htoken : l.token with
    | space v => exact absurd htoken (hspace v)
    | badString v => exact absurd htoken ((isTidy_iff.1 (h.tidy l hmem)).1 v)
    | function name =>
      rcases hl with rfl | ⟨b, hb⟩
      · rw [Fits, htoken] at hfits
        cases hfits.1
      · rw [htoken] at hb
        cases hb
    | delim d =>
      rw [Token.isFirm, bne_iff_ne]
      rintro rfl
      -- the backslash is all of the token
      obtain ⟨c', w', rest, hl', hread⟩ := reads_of_mem_cut (h.mem_cut hmem)
      have hreads := Token.reads_read c' (w' ++ rest)
      rw [hread, htoken] at hreads
      obtain ⟨rfl, hrest⟩ := hreads
      rw [hl', self_eq_append_left.1 hrest] at htext
      obtain ⟨a, w, rfl⟩ := exists_cons_of_ne_nil hw
      obtain ⟨rfl, hnil⟩ := cons.inj htext
      rw [(append_eq_nil_iff.1 hnil.symm).1] at hlast
      exact hlast rfl
    | _ => rfl

theorem beforeSemicolon (h : Stretch outer cs r) (hr : EndsToken r)
    (hfirm : ∀ l, (flatOf cs).getLast? = some l → l.token.isFirm = true) :
    Stretch outer cs [';'] := by
  refine ⟨?_, h.fits, h.tidy⟩
  have hpiece : EndsPiece [';'] := endsPiece_cons (stop_of_mem (by simp)) (by decide) (by decide) []
  rcases cut_exchange hr hpiece h.reads hfirm with hcut | ⟨_, _, _, heq, -⟩
  · exact hcut
  · cases heq

theorem trailing {init : List Component} {w spaces : List Char}
    (h : Stretch outer (init ++ [.leaf l]) r) (hr : r ≠ []) (htext : l.text = w ++ spaces)
    (hw : w ≠ []) (htrimmed : IsTrimmed w) (hne : spaces ≠ [])
    (hspaces : ∀ a ∈ spaces, isSpace a = true) (hlast : w.getLast? ≠ some '\\')
    (hfirm : l.token.isFirm = true) :
    Stretch outer (init ++ [.leaf ⟨l.token, w, .nowhere⟩]) [';'] := by
  have hflatOf : ∀ l', flatOf (init ++ [.leaf l']) = flatOf init ++ [l'] := by
    intro l'
    rw [flatOf_append, flatOf_singleton, flat]
  have hmem : l ∈ flatOf (init ++ [.leaf l]) := by
    rw [hflatOf]
    simp
  have hend : EndsFirmly w := fun a ha =>
    ⟨isSpace_of_not_isBlank (htrimmed.last a ha), fun hbackslash => hlast (hbackslash ▸ ha)⟩
  have htextOf : ∀ l', textOf (init ++ [.leaf l'])
      = (flatOf init).flatMap Lexeme.text ++ l'.text := by
    intro l'
    rw [textOf_append, textOf, Component.text, flatMap_text_flatOf]
    simp [textOf]
  have hcut := h.reads
  have hl : l = ⟨l.token, w ++ spaces, .nowhere⟩ := by
    rw [← htext, ← location_of_mem_cut (h.mem_cut hmem)]
  rw [htextOf, hflatOf, htext, append_assoc, append_assoc, append_assoc,
    singleton_append, hl] at hcut
  have hfits := allFit_append.1 h.fits
  refine ⟨?_, allFit_append.2 ⟨hfits.1, allFit_singleton.2 ?_⟩, fun l' hl' => ?_⟩
  · have hcut' := cut_trailing hne hspaces hr hfirm hw hend hcut []
    rw [htextOf, hflatOf, append_assoc, hcut', append_assoc, singleton_append]
  · have hleaf := allFit_singleton.1 hfits.2
    exact hleaf
  rw [hflatOf] at hl'
  rcases mem_append.1 hl' with hl' | hl'
  · exact h.tidy l' (by rw [hflatOf]; exact mem_append_left _ hl')
  · rw [mem_singleton.1 hl']
    refine isTidy_iff.2 ⟨(isTidy_iff.1 (h.tidy l hmem)).1, ?_⟩
    exact (trim_of_isTrimmed htrimmed).trans (dropSpacesEnd_of_isTrimmed htrimmed).symm

/-- **A run without the spaces at the end of its last token is read before a semicolon**, unless a
backslash stands before them. -/
theorem exists_trimmed (h : Stretch outer cs r) (hr : EndsToken r)
    (hhead : ∀ c, cs.head? = some c → c.isSpaces = false)
    (hlast : ∀ c, cs.getLast? = some c → c.isSpaces = false)
    (hback : ∀ x spaces, textOf cs = x ++ spaces → IsTrimmed x →
      (∀ a ∈ spaces, isSpace a = true) → x.getLast? ≠ some '\\') :
    ∃ inner spaces, Stretch outer inner [';'] ∧
      (∀ l, (flatOf inner).getLast? = some l → l.token.isFirm = true) ∧
      IsTrimmed (textOf inner) ∧ (∀ a ∈ spaces, isSpace a = true) ∧
      textOf cs = textOf inner ++ spaces ∧
      inner.map Component.token = cs.map Component.token := by
  rcases eq_nil_or_concat cs with rfl | ⟨init, c, hcs⟩
  · refine ⟨[], [], ⟨rfl, h.fits, nofun⟩, nofun, isTrimmed_nil, nofun, rfl, rfl⟩
  rw [concat_eq_append] at hcs
  subst hcs
  obtain ⟨ls, l, w, spaces, hflat, htext, hw, htrimmed, hspaces, hleaf, hfirm⟩ :=
    h.exists_last (hlast c getLast?_concat)
  obtain ⟨x, hx⟩ : ∃ x, x = textOf init ++ ls.flatMap Lexeme.text ++ w := ⟨_, rfl⟩
  have htextOf : textOf (init ++ [c]) = x ++ spaces := by
    rw [textOf_append, textOf, ← flatMap_text_flat, hflat, flatMap_append, flatMap_cons, htext, hx]
    simp [textOf]
  have hxlast : x.getLast? = w.getLast? := by
    rw [hx, getLast?_append_of_ne_nil _ hw]
  have hxtrimmed : IsTrimmed x := by
    refine ⟨fun a ha => h.head?_textOf hhead a ?_, fun a ha => htrimmed.last a (by rwa [← hxlast])⟩
    rw [htextOf, head?_append, ha]
    rfl
  have hwlast : w.getLast? ≠ some '\\' := by
    rw [← hxlast]
    exact hback x spaces htextOf hxtrimmed hspaces
  have hlfirm := hfirm hwlast
  have hlastfirm : ∀ (ls' : List Lexeme) (l' l'' : Lexeme), l'.token = l.token →
      (ls' ++ [l']).getLast? = some l'' → l''.token.isFirm = true := by
    intro ls' l' l'' htoken hl''
    rw [getLast?_concat] at hl''
    cases hl''
    rw [htoken]
    exact hlfirm
  by_cases hnil : spaces = []
  · subst hnil
    rw [append_nil] at htextOf
    have hlast' : ∀ l', (flatOf (init ++ [c])).getLast? = some l' → l'.token.isFirm = true := by
      rw [flatOf_append, flatOf_singleton, hflat, ← append_assoc]
      exact fun l' => hlastfirm _ l l' rfl
    exact ⟨init ++ [c], [], h.beforeSemicolon hr hlast', hlast', by rwa [htextOf], nofun,
      (append_nil _).symm, rfl⟩
  · obtain rfl := hleaf hnil
    have hinner : textOf (init ++ [.leaf ⟨l.token, w, .nowhere⟩]) = x := by
      obtain rfl : ls = [] := append_cancel_right hflat.symm
      rw [textOf_append, textOf, Component.text, hx]
      simp [textOf]
    refine ⟨init ++ [.leaf ⟨l.token, w, .nowhere⟩], spaces,
      h.trailing hr.ne_nil htext hw htrimmed hnil hspaces hwlast hlfirm, ?_, ?_, hspaces, ?_, ?_⟩
    · rw [flatOf_append, flatOf_singleton, flat]
      exact fun l' => hlastfirm _ _ l' rfl
    · rw [hinner]
      exact hxtrimmed
    · rw [hinner]
      exact htextOf
    · simp [Component.token, lexeme]

/-- **What stands between the spaces at the ends of a run is a fragment**, unless it ends with a
backslash. -/
theorem exists_inner (h : Stretch outer cs r) (hr : EndsToken r)
    (hback : (trim (textOf cs)).getLast? ≠ some '\\') :
    ∃ inner, Inner outer cs inner := by
  obtain ⟨before, core, behind, rfl, hbefore, hbehind, hhead, hlast⟩ :=
    StyleBlocks.exists_inner isSpaces cs
  have hblank : ∀ {cs : List Component} {r : List Char}, Stretch outer cs r →
      (∀ c ∈ cs, c.isSpaces = true) → ∀ a ∈ textOf cs, isBlank a = true :=
    fun h hcs a ha => isBlank_of_isSpace (h.isSpace_of_mem hcs a ha)
  have hend : EndsToken (textOf behind ++ r) :=
    h.right.endsToken hr fun c hc => isFiller_of_isSpaces (hbehind c hc)
  have htrim : ∀ x spaces, textOf core = x ++ spaces → IsTrimmed x →
      (∀ a ∈ spaces, isSpace a = true) → trim (textOf (before ++ core ++ behind)) = x := by
    intro x spaces hx htrimmed hspaces
    rw [textOf_append, textOf_append, hx, ← append_assoc, append_assoc]
    refine trim_append htrimmed (hblank h.left.left hbefore) fun a ha => ?_
    rcases mem_append.1 ha with ha | ha
    · exact isBlank_of_isSpace (hspaces a ha)
    · exact hblank h.right hbehind a ha
  obtain ⟨inner, spaces, hrun, hfirm, htrimmed, hspaces, htext, htokens⟩ :=
    h.left.right.exists_trimmed hend hhead hlast fun x spaces hx htrimmed hspaces => by
      rw [← htrim x spaces hx htrimmed hspaces]
      exact hback
  refine ⟨inner, hrun, hfirm, htrimmed, htrim _ _ htext htrimmed hspaces, fun c hc => ?_, fun c hc => ?_,
    fun c hc hspace => ?_, fun c hc hspace => ?_⟩
  · have hmem : c.token ∈ core.map Component.token := by
      rw [← htokens]
      exact mem_map_of_mem hc
    obtain ⟨d, hd, htoken⟩ := mem_map.1 hmem
    exact ⟨d, by simp [hd], htoken⟩
  · have hmap := congrArg getLast? htokens
    rw [getLast?_map, getLast?_map, hc] at hmap
    obtain ⟨d, hd, htoken⟩ := Option.map_eq_some_iff.1 hmap.symm
    rw [isSpaces, ← htoken]
    exact hlast d hd
  · have hmap := congrArg head? htokens
    rw [head?_map, head?_map, head?_inner hbefore hbehind hc hspace] at hmap
    exact Option.map_eq_some_iff.1 hmap
  · rw [← head?_reverse, reverse_append, reverse_append, ← append_assoc] at hc
    have hcore := head?_inner (fun c hc => hbehind c (mem_reverse.1 hc))
      (fun c hc => hbefore c (mem_reverse.1 hc)) hc hspace
    rw [head?_reverse] at hcore
    have hmap := congrArg getLast? htokens
    rw [getLast?_map, getLast?_map, hcore] at hmap
    exact Option.map_eq_some_iff.1 hmap

end Stretch

/-- A stretch without blocks of curly brackets. -/
structure Run (outer : Option Bracket) (cs : List Component) (r : List Char) : Prop
    extends Stretch outer cs r where
  curly : ∀ c ∈ cs, c.isCurly = false

theorem Component.Fits.isCurly_iff (h : c.Fits outer) :
    c.isCurly = true ↔ c.token = .opener .curly := by
  cases c with
  | leaf l =>
    rw [Fits] at h
    have hne : l.token ≠ .opener .curly := by
      intro htoken
      rw [htoken] at h
      cases h.1
    exact ⟨nofun, fun htoken => absurd htoken hne⟩
  | block l b body stop close =>
    rw [Fits] at h
    constructor
    · intro hcurly
      cases b with
      | curly => exact Token.eq_opener_curly h.1
      | _ => cases hcurly
    · intro htoken
      have htoken : l.token = .opener .curly := htoken
      rw [htoken] at h
      cases h.1
      rfl

namespace Run

variable {cs ds inner : List Component}

theorem left (h : Run outer (cs ++ ds) r) : Run outer cs (textOf ds ++ r) :=
  ⟨h.toStretch.left, fun c hc => h.curly c (mem_append_left _ hc)⟩

theorem right (h : Run outer (cs ++ ds) r) : Run outer ds r :=
  ⟨h.toStretch.right, fun c hc => h.curly c (mem_append_right _ hc)⟩

theorem of_inner (h : Run outer cs r) (hinner : Inner outer cs inner) : Run outer inner [';'] := by
  refine ⟨hinner.toStretch, fun c hc => ?_⟩
  obtain ⟨d, hd, htoken⟩ := hinner.mem c hc
  have hcurly := h.curly d hd
  rw [Bool.eq_false_iff, ne_eq, (allFit_iff.1 h.fits d hd).isCurly_iff, htoken] at hcurly
  rwa [Bool.eq_false_iff, ne_eq, (allFit_iff.1 hinner.fits c hc).isCurly_iff]

theorem fragment (h : Run outer cs r) (hinner : Inner outer cs inner) :
    Fragment outer (textOf inner) inner :=
  ⟨hinner.reads, hinner.fits, hinner.firm, (h.of_inner hinner).curly⟩

end Run

/-! ## Preludes -/

theorem Fragment.isSuffix_of_comment {x : List Char} {cs : List Component} (h : Fragment outer x cs)
    (hl : cs.getLast? = some (.leaf l)) (hcomment : l.token = .comment v) :
    ['*', '/'] <:+ x := by
  obtain ⟨init, rfl⟩ := getLast?_eq_some_iff.1 hl
  have hcut := h.cut
  rw [flatOf_append, flatOf_singleton, flat, append_assoc] at hcut
  obtain ⟨c, w, rest, -, hread, hlexeme, hrest⟩ := exists_of_cut_eq_append hcut
  have hne : rest ≠ [] := by
    rintro rfl
    rw [cut_nil, Lexeme.cut_semicolon] at hrest
    cases hrest
  have hreads := Token.reads_read c (w ++ rest)
  rw [hread, hcomment] at hreads
  obtain ⟨rfl, t, ht, hv⟩ := hreads
  have hw : w = '*' :: (v.toList ++ ['*', '/']) := by
    have happend := readComment_eq_append hv hne
    rw [happend] at ht
    have hsplit : w ++ rest = ('*' :: (v.toList ++ ['*', '/'])) ++ rest := by
      rw [ht]
      simp
    exact append_cancel_right hsplit
  rw [← h.textOf, textOf_append, Component.textOf, Component.text, hlexeme, hw]
  exact ⟨Component.textOf init ++ '/' :: '*' :: v.toList, by simp [Component.textOf]⟩

namespace Run

variable {cs : List Component} {top : Bool}

/-- **What stands before a body or a semicolon is read back**, without the comments at its end. -/
theorem exists_prelude (h : Run outer cs r) (hr : EndsToken r)
    (hback : (preludeText cs.reverse).toList.getLast? ≠ some '\\') : ∃ inner,
    Fragment outer (preludeText cs.reverse).toList inner ∧
      IsTrimmed (preludeText cs.reverse).toList ∧
      (∀ c ∈ inner, ∃ d ∈ cs, d.token = c.token) ∧
      (∀ c, inner.getLast? = some c → c.isFiller = false) ∧
      ∀ c, cs.head? = some c → c.isFiller = false →
        ∃ d, inner.head? = some d ∧ d.token = c.token := by
  obtain ⟨ds, hds⟩ : ∃ ds, ds = (cs.reverse.dropWhile isFiller).reverse := ⟨_, rfl⟩
  obtain ⟨fs, hfs⟩ : ∃ fs, fs = (cs.reverse.takeWhile isFiller).reverse := ⟨_, rfl⟩
  have hcs : cs = ds ++ fs := by
    rw [hds, hfs, ← reverse_append, takeWhile_append_dropWhile, reverse_reverse]
  have hfiller : ∀ c ∈ fs, c.isFiller = true := by
    intro c hc
    rw [hfs, mem_reverse] at hc
    exact all_eq_true.1 all_takeWhile c hc
  have hlast : ∀ c, ds.getLast? = some c → c.isFiller = false := by
    intro c hc
    have hnot := head?_dropWhile_not isFiller cs.reverse
    rw [hds, getLast?_reverse] at hc
    rw [hc] at hnot
    simpa using hnot
  have htext : preludeText cs.reverse = String.ofList (trim (textOf ds)) := by
    rw [preludeText, spanText, ← hds]
  have hspaces : ∀ c : Component, c.isFiller = false → c.isSpaces = false := by
    intro c hc
    cases hs : c.isSpaces with
    | false => rfl
    | true =>
      rw [isFiller_of_isSpaces hs] at hc
      cases hc
  subst hcs
  rw [htext, String.toList_ofList] at hback ⊢
  obtain ⟨inner, hinner⟩ := h.left.exists_inner (h.right.endsToken hr hfiller) hback
  rw [hinner.trim]
  refine ⟨inner, h.left.fragment hinner, hinner.isTrimmed, fun c hc => ?_, fun c hc => ?_,
    fun c hc hcf => ?_⟩
  · obtain ⟨d, hd, htoken⟩ := hinner.mem c hc
    exact ⟨d, mem_append_left _ hd, htoken⟩
  · obtain ⟨d, hd, -⟩ := hinner.mem c (mem_of_getLast? hc)
    obtain ⟨e, he⟩ : ∃ e, ds.getLast? = some e :=
      ⟨_, getLast?_eq_some_getLast (ne_nil_of_mem hd)⟩
    obtain ⟨c', hc', htoken⟩ := hinner.last e he (hspaces e (hlast e he))
    rw [hc] at hc'
    cases hc'
    rw [isFiller, htoken]
    exact hlast e he
  · refine hinner.head c ?_ (hspaces c hcf)
    cases ds with
    | nil =>
      rw [hfiller c (mem_of_head? hc)] at hcf
      cases hcf
    | cons d ds => exact hc

theorem isSemicolon_of_token {inner : List Component} (hcs : ∀ c ∈ cs, c.isSemicolon = false)
    (h : ∀ c ∈ inner, ∃ d ∈ cs, d.token = c.token) : ∀ c ∈ inner, c.isSemicolon = false := by
  intro c hc
  obtain ⟨d, hd, htoken⟩ := h c hc
  rw [isSemicolon, ← htoken]
  exact hcs d hd

theorem readsParams_preludeText (h : Run (levelBracket top) cs r) (hr : EndsToken r)
    (hsemicolon : ∀ c ∈ cs, c.isSemicolon = false)
    (hback : (preludeText cs.reverse).toList.getLast? ≠ some '\\') :
    ReadsParams top (preludeText cs.reverse).toList := by
  obtain ⟨inner, hfragment, htrimmed, hmem, hlast, -⟩ := h.exists_prelude hr hback
  exact fun _ => ⟨inner, hfragment, htrimmed, isSemicolon_of_token hsemicolon hmem, hlast⟩

theorem readsParams_spanText (h : Run (levelBracket top) cs r) (hr : EndsToken r)
    (hsemicolon : ∀ c ∈ cs, c.isSemicolon = false)
    (hback : (spanText cs.reverse).toList.getLast? ≠ some '\\')
    (hcomment : ¬ ['*', '/'] <:+ (spanText cs.reverse).toList) :
    ReadsParams top (spanText cs.reverse).toList := by
  rw [spanText, reverse_reverse, String.toList_ofList] at hback hcomment ⊢
  obtain ⟨inner, hinner⟩ := h.exists_inner hr hback
  rw [hinner.trim] at hcomment ⊢
  refine fun _ => ⟨inner, h.fragment hinner, hinner.isTrimmed,
    isSemicolon_of_token hsemicolon hinner.mem, fun c hc => ?_⟩
  cases hfiller : c.isFiller with
  | false => rfl
  | true =>
    exfalso
    obtain ⟨l, rfl, -⟩ := hinner.exists_leaf (mem_of_getLast? hc) hfiller
    cases htoken : l.token with
    | space v => exact ne_space_of_isSpaces (hinner.space _ hc) v htoken
    | comment v => exact hcomment ((h.fragment hinner).isSuffix_of_comment hc htoken)
    | _ =>
      have hfiller : l.token.isFiller = true := hfiller
      rw [htoken] at hfiller
      cases hfiller

theorem readsSelector_preludeText (h : Run (levelBracket top) cs r) (hr : EndsToken r)
    (hhead : ∃ c, cs.head? = some c ∧ c.token.beginsStatement = true)
    (hsemicolon : top = false → ∀ c ∈ cs, c.isSemicolon = false)
    (hback : (preludeText cs.reverse).toList.getLast? ≠ some '\\')
    (hne : (preludeText cs.reverse).isEmpty = false) :
    ReadsSelector top (preludeText cs.reverse).toList := by
  obtain ⟨inner, hfragment, htrimmed, hmem, hlast, hhead'⟩ := h.exists_prelude hr hback
  obtain ⟨c, hc, hbegins⟩ := hhead
  refine ⟨inner, hfragment, htrimmed, fun hnil => ?_, ?_, hlast,
    fun htop => isSemicolon_of_token (hsemicolon htop) hmem⟩
  · rw [String.toList_eq_nil_iff.1 hnil] at hne
    cases hne
  · obtain ⟨d, hd, htoken⟩ := hhead' c hc (isFiller_of_beginsStatement hbegins)
    obtain ⟨cs', hcs'⟩ := head?_eq_some_iff.1 hd
    exact ⟨d, cs', hcs', by rw [htoken, hbegins]⟩

end Run

end StyleBlocks
