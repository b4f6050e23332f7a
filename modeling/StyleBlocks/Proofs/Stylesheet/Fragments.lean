import StyleBlocks.Proofs.Stylesheet.Bare
import StyleBlocks.Proofs.Text.Trim

/-!
# Fragments of stylesheets

A selector, what follows the name of an at-rule, and a value are kept as written.  Such a text is
read from the same components wherever it stands if its brackets are closed and its last token is
whole (`Fragment`).

* `Fragment.cut_semicolon`, `Fragment.cut_space`: **a fragment is read before a semicolon and before a
  space**, which its last token may take along.
-/

namespace StyleBlocks

open Component List

variable {c : Component} {cs' : List Component} {s w : List Char} {outer : Option Bracket}

/-! ## Single tokens -/

namespace Lexeme

theorem location_of_mem_cut {l : Lexeme} (h : l ∈ cut s) : l.location = .nowhere := by
  obtain ⟨l, -, rfl⟩ := mem_map.1 h
  rfl

theorem cut_mark {c : Char} {t : Token} (h : ∀ s, Token.read c s = (t, s)) (s : List Char) :
    cut (c :: s) = ⟨t, [c], .nowhere⟩ :: cut s :=
  cut_cons (h s) rfl

theorem cut_semicolon (s : List Char) : cut (';' :: s) = ⟨.semicolon, [';'], .nowhere⟩ :: cut s :=
  cut_mark (fun _ => rfl) s

theorem cut_writes {rest : List Char} {name : String} (h : Writes w name) (hr : Follows rest) :
    cut (w ++ rest) = ⟨.ident name, w, .nowhere⟩ :: cut rest := by
  obtain ⟨c, s, rfl, hread⟩ := h.read rest hr
  exact cut_cons hread rfl

theorem cut_spaces {spaces : List Char} (hne : spaces ≠ []) (h : ∀ c ∈ spaces, isSpace c = true)
    (hs : ∀ c, s.head? = some c → isSpace c = false) :
    cut (spaces ++ s) = ⟨.space (String.ofList spaces), spaces, .nowhere⟩ :: cut s := by
  obtain ⟨c, spaces, rfl⟩ := exists_cons_of_ne_nil hne
  have hdrop : spaces.dropWhile isSpace = [] := by
    rw [dropWhile_eq_nil_iff]
    exact fun c hc => h c (mem_cons_of_mem _ hc)
  have htake : spaces.takeWhile isSpace = spaces := by
    rw [takeWhile_eq_self_iff]
    exact fun c hc => h c (mem_cons_of_mem _ hc)
  obtain ⟨ht, hd⟩ := takeWhile_append_of_head hs spaces
  rw [cons_append]
  refine cut_cons ?_ (cons_append ..)
  rw [Token.read_of_isSpace (h c mem_cons_self), ht, hd, hdrop, htake]
  rfl

end Lexeme

def spaceLeaf (spaces : List Char) : Component :=
  .leaf ⟨.space (String.ofList spaces), spaces, .nowhere⟩

theorem fits_spaceLeaf (outer : Option Bracket) (spaces : List Char) :
    (spaceLeaf spaces).Fits outer :=
  fits_leaf rfl rfl

/-! ## Fragments -/

/-- The text is made of the given components, which fit inside the bracket `outer`, whatever comes
behind it: none of them is a block of curly brackets, and the last token is whole. -/
structure Fragment (outer : Option Bracket) (x : List Char) (cs : List Component) : Prop where
  cut : Lexeme.cut (x ++ [';']) = Component.flatOf cs ++ Lexeme.cut [';']
  fits : Component.AllFit outer cs
  firm : ∀ l, (Component.flatOf cs).getLast? = some l → l.token.isFirm = true
  curly : ∀ c ∈ cs, c.isCurly = false

namespace Component

/-- The component with more characters at its end. -/
def extend : Component → List Char → Component
  | leaf l, s => leaf ⟨l.token, l.text ++ s, l.location⟩
  | block l b body stop close, s => block l b body stop (close ++ s)

theorem token_extend (c : Component) (s : List Char) : (c.extend s).token = c.token := by
  cases c <;> rfl

theorem isCurly_extend (c : Component) (s : List Char) : (c.extend s).isCurly = c.isCurly := by
  cases c with
  | leaf l => rfl
  | block l b body stop close => cases b <;> rfl

theorem text_extend (c : Component) (s : List Char) : (c.extend s).text = c.text ++ s := by
  cases c with
  | leaf l => rw [extend, text, text]
  | block l b body stop close => rw [extend, text, text, ← append_assoc]

theorem fits_extend (h : c.Fits outer) (s : List Char) : (c.extend s).Fits outer := by
  cases c with
  | leaf l =>
    exact h
  | block l b body stop close =>
    exact ⟨h.1, by simp [h.2.1], h.2.2⟩

theorem flat_extend (h : c.Fits outer) (s : List Char) : ∃ init l, c.flat = init ++ [l] ∧
      (c.extend s).flat = init ++ [⟨l.token, l.text ++ s, l.location⟩] := by
  cases c with
  | leaf l => exact ⟨[], l, by rw [flat]; rfl, by rw [extend, flat]; rfl⟩
  | block l b body stop close =>
    refine ⟨l :: flatOf body, ⟨.closer b, close, stop⟩, ?_, ?_⟩
    · rw [flat, closing, if_neg h.2.1, cons_append]
    · rw [extend, flat, closing, if_neg (by simp [h.2.1]), cons_append]

end Component

namespace Fragment

variable {x : List Char} {cs : List Component}

theorem textOf (h : Fragment outer x cs) : Component.textOf cs = x := by
  have htext := Lexeme.flatMap_text_cut (x ++ [';'])
  rw [h.cut, flatMap_append, Lexeme.flatMap_text_cut, flatMap_text_flatOf] at htext
  exact append_cancel_right htext

theorem ne_nil (h : Fragment outer x cs) (hx : x ≠ []) : cs ≠ [] := by
  rintro rfl
  exact hx h.textOf.symm

theorem getLast?_ne_space (h : Fragment outer x cs) (hc : cs.getLast? = some c) (v : String) :
    c.token ≠ .space v := by
  intro htoken
  obtain ⟨init, rfl⟩ := getLast?_eq_some_iff.1 hc
  have hfits := allFit_singleton.1 (allFit_append.1 h.fits).2
  cases c with
  | leaf l =>
    have hfirm := h.firm l (by
      rw [flatOf_append, flatOf_singleton, flat, getLast?_concat])
    have htoken : l.token = .space v := htoken
    rw [htoken] at hfirm
    cases hfirm
  | block l b body stop close =>
    rw [Fits] at hfits
    have htoken : l.token = .space v := htoken
    rw [htoken] at hfits
    cases hfits.1

theorem head_ne_space (h : Fragment outer x cs) (hx : IsTrimmed x) (hcs : cs = c :: cs')
    (v : String) : c.token ≠ .space v := by
  intro htoken
  subst hcs
  have hcut := h.cut
  obtain ⟨ls, hflat⟩ := c.exists_flat_eq
  rw [flatOf, hflat, append_assoc, cons_append] at hcut
  obtain ⟨a, w, rest, heq, hread, hlexeme, -⟩ := Lexeme.exists_of_cut_eq_cons hcut
  have hspace : isSpace a = true := by
    have hreads := Token.reads_read a (w ++ rest)
    have htoken : c.lexeme.token = .space v := htoken
    rw [hread, htoken] at hreads
    exact hreads.1
  have hhead : x.head? = some a := by
    have htext := h.textOf
    rw [Component.textOf, ← flatMap_text_flat, hflat, flatMap_cons, hlexeme] at htext
    rw [← htext]
    rfl
  have hblank := hx.head a hhead
  rw [isBlank_of_isSpace hspace] at hblank
  cases hblank

theorem cut_semicolon (h : Fragment outer x cs) (v : List Char) :
    Lexeme.cut (x ++ ';' :: v) = flatOf cs ++ Lexeme.cut (';' :: v) := by
  have hpiece : EndsPiece (';' :: v) :=
    endsPiece_cons (stop_of_mem (by simp)) (by decide) (by decide) v
  rcases Lexeme.cut_exchange (endsToken_semicolon []) hpiece h.cut h.firm with hcut | hcut
  · exact hcut
  · obtain ⟨_, _, _, heq, -⟩ := hcut
    cases heq

/-- The components of a fragment and of the space behind it: the space is a token of its own, or the
last token takes it along. -/
def Spaced (cs ds : List Component) : Prop :=
  ds = cs ++ [spaceLeaf [' ']] ∨
    ∃ init c, cs = init ++ [c] ∧ ds = init ++ [c.extend [' ']]

theorem cut_space (h : Fragment outer x cs) (hw : EndsToken w)
    (hs : ∀ b, w.head? = some b → isSpace b = false) :
    ∃ ds, Spaced cs ds ∧ Lexeme.cut (x ++ ' ' :: w) = flatOf ds ++ Lexeme.cut w := by
  have hpiece := endsPiece_space hw hs
  rcases Lexeme.cut_exchange (endsToken_semicolon []) hpiece h.cut h.firm with
    hcut | ⟨init, last, w', heq, hlast, hcut⟩
  · have hspace : Lexeme.cut ([' '] ++ w) = _ :=
      Lexeme.cut_spaces (by simp) (by simp [isSpace]) hs
    refine ⟨_, .inl rfl, ?_⟩
    rw [singleton_append] at hspace
    rw [hcut, hspace, flatOf_append, append_assoc]
    rfl
  · cases heq
    -- the last token is that of the last component
    rcases eq_nil_or_concat cs with rfl | ⟨cs', c, hcs⟩
    · exact absurd hlast (by simp [flatOf])
    rw [concat_eq_append] at hcs
    subst hcs
    have hfits := h.fits
    rw [allFit_iff] at hfits
    obtain ⟨init', l, hflat, hextend⟩ :=
      flat_extend (hfits c (by simp)) [' ']
    rw [flatOf_append, flatOf_singleton, hflat, ← append_assoc] at hlast
    obtain ⟨rfl, heq⟩ := append_inj' hlast rfl
    obtain rfl := (cons.inj heq).1
    have hlocation : l.location = .nowhere := by
      refine Lexeme.location_of_mem_cut (s := x ++ [';']) ?_
      rw [h.cut, flatOf_append, flatOf_singleton, hflat]
      simp
    refine ⟨_, .inr ⟨cs', c, rfl, rfl⟩, ?_⟩
    rw [hcut, flatOf_append, flatOf_singleton, hextend, hlocation]
    simp

namespace Spaced

variable {ds : List Component}

theorem forall_mem (h : Spaced cs ds) {P : Component → Prop} (hcs : ∀ c ∈ cs, P c)
    (hextend : ∀ c, P c → P (c.extend [' ']))
    (hspace : P (spaceLeaf [' '])) : ∀ d ∈ ds, P d := by
  intro d hd
  rcases h with rfl | ⟨init, c, rfl, rfl⟩
  · rcases mem_append.1 hd with hd | hd
    · exact hcs d hd
    · rw [mem_singleton.1 hd]
      exact hspace
  rcases mem_append.1 hd with hd | hd
  · exact hcs d (mem_append_left _ hd)
  · rw [mem_singleton.1 hd]
    exact hextend c (hcs c (by simp))

theorem fits (h : Spaced cs ds) (hcs : AllFit outer cs) : AllFit outer ds := by
  rw [allFit_iff] at hcs ⊢
  exact h.forall_mem hcs (fun c hc => fits_extend hc _) (fits_spaceLeaf ..)

theorem curly (h : Spaced cs ds) (hcs : ∀ c ∈ cs, c.isCurly = false) : ∀ d ∈ ds, d.isCurly = false :=
  h.forall_mem hcs (fun c hc => (c.isCurly_extend _).trans hc) rfl

theorem semicolon (h : Spaced cs ds) (hcs : ∀ c ∈ cs, c.isSemicolon = false) :
    ∀ d ∈ ds, d.isSemicolon = false := by
  refine h.forall_mem hcs (fun c hc => ?_) rfl
  rw [isSemicolon, c.token_extend]
  exact hc

theorem textOf (h : Spaced cs ds) : Component.textOf ds = Component.textOf cs ++ [' '] := by
  rcases h with rfl | ⟨init, c, rfl, rfl⟩
  · rw [textOf_append]
    rfl
  · rw [textOf_append, textOf_append, append_assoc]
    simp only [Component.textOf, c.text_extend, append_nil]

theorem head (h : Spaced cs ds) (hcs : cs = c :: cs') :
    ∃ d ds', ds = d :: ds' ∧ d.token = c.token := by
  subst hcs
  rcases h with rfl | ⟨init, last, hcs, rfl⟩
  · exact ⟨c, _, rfl, rfl⟩
  cases init with
  | nil =>
    cases hcs
    exact ⟨_, [], rfl, c.token_extend _⟩
  | cons d init =>
    cases hcs
    exact ⟨c, _, rfl, rfl⟩

end Spaced

theorem preludeText_append (before : List Component) {ds : List Component} (hx : IsTrimmed x)
    (hbefore : ∀ c ∈ Component.textOf before, isBlank c = true)
    (hlast : ∀ c, cs.getLast? = some c → c.isFiller = false) (hcs : cs ≠ [])
    (htext : Component.textOf cs = x) (hds : ds = cs ∨ Spaced cs ds) :
    preludeText (before ++ ds).reverse = String.ofList x := by
  have hprelude : ∀ (init : List Component) (c : Component) (behind : List Char),
      c.isFiller = false → (∀ d ∈ behind, isBlank d = true) →
      Component.textOf (init ++ [c]) = x ++ behind →
      preludeText (c :: (before ++ init).reverse) = String.ofList x := by
    intro init c behind hc hbehind htext
    rw [preludeText, dropWhile_cons, hc, if_neg Bool.false_ne_true, spanText,
      reverse_cons, reverse_reverse, append_assoc, textOf_append, htext,
      ← append_assoc, trim_append hx hbefore hbehind]
  rcases eq_nil_or_concat cs with hnil | ⟨init, c, hcat⟩
  · exact absurd hnil hcs
  rw [concat_eq_append] at hcat
  subst hcat
  have hc : c.isFiller = false := hlast c (by simp)
  rcases hds with rfl | rfl | ⟨init', c', heq, rfl⟩
  · rw [← append_assoc, reverse_append]
    exact hprelude init c [] hc (by simp) (by rw [htext, append_nil])
  · rw [← append_assoc, ← append_assoc, reverse_append, reverse_append]
    exact hprelude init c [] hc (by simp) (by rw [htext, append_nil])
  obtain ⟨rfl, hlast⟩ := append_inj' heq rfl
  obtain rfl := (cons.inj hlast).1
  rw [← append_assoc, reverse_append]
  refine hprelude init (c.extend [' ']) [' '] ?_ (by simp [isBlank_of_isSpace, isSpace]) ?_
  · rw [isFiller, c.token_extend]
    exact hc
  · have hspaced : Spaced (init ++ [c]) (init ++ [c.extend [' ']]) := .inr ⟨init, c, rfl, rfl⟩
    rw [hspaced.textOf, htext]

end Fragment

/-- Components that fit inside the bracket `outer` and are neither semicolons nor blocks of curly
brackets. -/
structure PlainRun (outer : Option Bracket) (cs : List Component) : Prop where
  fits : Component.AllFit outer cs
  curly : ∀ c ∈ cs, c.isCurly = false
  semicolon : ∀ c ∈ cs, c.isSemicolon = false

namespace PlainRun

variable {cs ds : List Component}

theorem nil : PlainRun outer [] :=
  ⟨by rw [AllFit]; trivial, nofun, nofun⟩

theorem append (hcs : PlainRun outer cs) (hds : PlainRun outer ds) : PlainRun outer (cs ++ ds) := by
  refine ⟨allFit_append.2 ⟨hcs.fits, hds.fits⟩, fun c hc => ?_, fun c hc => ?_⟩
  · exact (mem_append.1 hc).elim (hcs.curly c) (hds.curly c)
  · exact (mem_append.1 hc).elim (hcs.semicolon c) (hds.semicolon c)

theorem leaf {l : Lexeme} (hopens : l.token.opens = none) (hcloses : l.token.closes = none)
    (hsemicolon : l.token ≠ .semicolon) : PlainRun outer [.leaf l] := by
  refine ⟨allFit_singleton.2 (fits_leaf hopens hcloses), fun c hc => ?_, fun c hc => ?_⟩
  · rw [mem_singleton.1 hc]
    rfl
  · rw [mem_singleton.1 hc]
    exact beq_eq_false_iff_ne.2 hsemicolon

theorem spaces (spaces : List Char) : PlainRun outer [spaceLeaf spaces] :=
  leaf rfl rfl nofun

theorem spaced (hcs : PlainRun outer cs) (h : Fragment.Spaced cs ds) : PlainRun outer ds :=
  ⟨h.fits hcs.fits, h.curly hcs.curly, h.semicolon hcs.semicolon⟩

end PlainRun

theorem Fragment.plainRun {x : List Char} {cs : List Component} (h : Fragment outer x cs)
    (hsemicolon : ∀ c ∈ cs, c.isSemicolon = false) : PlainRun outer cs :=
  ⟨h.fits, h.curly, hsemicolon⟩

end StyleBlocks
