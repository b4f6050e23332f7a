import StyleBlocks.Proofs.Token.Closings
import StyleBlocks.Proofs.Token.Cut

/-!
# Spaces at the ends of tokens

An escape takes a space along that stands behind its digits.  A token that ends with such a space is
the same without it, before a semicolon.

Main result: `Token.read_trailing`.
-/

namespace StyleBlocks

open List

variable {s : List Char}

theorem readName_fst_of_snd (h : (readName s).2 = s) : (readName s).1 = [] := by
  have hlen := readName_length_le s
  rw [h] at hlen
  exact length_eq_zero_iff.1 (by omega)

theorem isSpace_of_not_isBlank {c : Char} (h : isBlank c = false) : isSpace c = false := by
  cases hc : isSpace c with
  | false => rfl
  | true =>
    rw [isBlank_of_isSpace hc] at h
    cases h

theorem startsWithNewline_of_readString {q : Char} (h : (readString q s).1 = true) :
    startsWithNewline (readString q s).2.2 = true := by
  fun_induction readString q s with
  | case1 | case2 | case4 => cases h
  | case3 c s _ hc => exact hc
  | case5 c s _ _ _ _ _ ih | case6 c s _ _ _ _ _ r ih | case7 c s _ _ _ r ih => exact ih h

/-- A last token before a mark is whole, if no space stands there and it opens no bracket. -/
theorem Lexeme.isFirm_of_getLast? {r : List Char} {a : Char} {ls : List Lexeme} {l : Lexeme}
    (hspace : isSpace a = false) (h : cut (s ++ a :: r) = ls ++ cut (a :: r))
    (hl : ls.getLast? = some l) (hopens : l.token.opens = none)
    (hs : ∀ c, s.getLast? = some c → isSpace c = false) : l.token.isFirm = true := by
  obtain ⟨init, rfl⟩ := getLast?_eq_some_iff.1 hl
  rw [append_assoc, singleton_append] at h
  obtain ⟨c, w, rest, hcut, hread, hlexeme, hrest⟩ := exists_of_cut_eq_append h
  obtain rfl : rest = a :: r := by
    have htext := congrArg (flatMap text) hrest
    rwa [flatMap_text_cut, flatMap_text_cut] at htext
  obtain rfl : s = init.flatMap text ++ c :: w := by
    rw [← append_assoc] at hcut
    exact append_cancel_right hcut
  have hnewline : isNewline a = false := by
    unfold isSpace at hspace
    simp only [Bool.or_eq_false_iff] at hspace
    exact hspace.2
  have hreads := Token.reads_read c (w ++ a :: r)
  rw [hread] at hreads
  cases htoken : l.token with
  | space v =>
    exfalso
    rw [htoken] at hreads
    obtain ⟨hc, hrest⟩ := hreads
    have hw : ∀ d ∈ w, isSpace d = true := by
      rw [← dropWhile_eq_nil_iff]
      rw [(takeWhile_append_of_head (p := isSpace) (r := a :: r) (by simp [hspace]) w).2] at hrest
      exact (self_eq_append_left.1 hrest)
    obtain ⟨d, hd⟩ : ∃ d, (c :: w).getLast? = some d := ⟨_, getLast?_eq_some_getLast (by simp)⟩
    have hlast := hs d (by rw [getLast?_append_of_ne_nil _ (by simp), hd])
    rcases mem_cons.1 (mem_of_getLast? hd) with rfl | hmem
    · rw [hc] at hlast
      cases hlast
    · rw [hw d hmem] at hlast
      cases hlast
  | badString v =>
    exfalso
    rw [htoken] at hreads
    have hbroken := startsWithNewline_of_readString (s := w ++ a :: r) (q := c) (by rw [hreads.2])
    rw [hreads.2, startsWithNewline, hnewline] at hbroken
    cases hbroken
  | delim d =>
    rw [htoken] at hreads hread
    obtain ⟨rfl, hw⟩ := hreads
    rw [Token.isFirm, bne_iff_ne]
    rintro rfl
    -- a backslash here would escape the mark
    have hstart : startsIdent ('\\' :: (w ++ a :: r)) = true := by
      rw [← hw, startsIdent, startsWithNewline, hnewline]
      rfl
    have hword := isWord_readIdentLike ('\\' :: (w ++ a :: r))
    rw [← read_of_startsIdent hstart (by simp), hread] at hword
    exact hword
  | function name =>
    rw [htoken] at hopens
    cases hopens
  | _ => rfl

/-- The text ends neither with a space nor with a backslash. -/
def EndsFirmly (s : List Char) : Prop :=
  ∀ a, s.getLast? = some a → isSpace a = false ∧ a ≠ '\\'

theorem EndsFirmly.of_suffix {u : List Char} (h : EndsFirmly s) (hu : u <:+ s) : EndsFirmly u :=
  fun a ha => h a (getLast?_of_isSuffix hu ha)

theorem EndsFirmly.ne_backslash (h : EndsFirmly s) : s ≠ ['\\'] := by
  rintro rfl
  exact (h '\\' rfl).2 rfl

section

variable {spaces rest v : List Char} (hne : spaces ≠ []) (hspaces : ∀ c ∈ spaces, isSpace c = true)

include hne hspaces

theorem endsToken_spaces : EndsToken (spaces ++ rest) := by
  obtain ⟨a, w, rfl⟩ := exists_cons_of_ne_nil hne
  have ha := hspaces a mem_cons_self
  refine endsToken_cons (stop_of_isSpace ha) ?_ _
  rintro rfl
  exact absurd ha (by decide)

theorem isSpace_of_isSuffix {a : Char} (h : a :: rest <:+ s ++ (spaces ++ rest)) :
    isSpace a = true := by
  obtain ⟨w, hw⟩ := h
  rw [← append_assoc, ← singleton_append, ← append_assoc] at hw
  have hlast := congrArg getLast? (append_cancel_right hw)
  rw [getLast?_concat, getLast?_append_of_ne_nil _ hne] at hlast
  exact hspaces a (mem_of_getLast? hlast.symm)

omit hspaces in
theorem rest_ne_append (m : List Char) : rest ≠ m ++ (spaces ++ rest) := by
  intro h
  have hlen := congrArg length h
  have hpos := length_pos_iff.2 hne
  rw [length_append, length_append] at hlen
  omega

omit hne in
theorem readName_fst_of_isSuffix {q : List Char} (hq : q <:+ spaces ++ rest)
    (h : (readName q).2 = rest) : (readName q).1 = [] := by
  obtain ⟨m, hm, rfl⟩ := exists_append_of_suffix hq (by
    have := (readName_suffix q).length_le
    rwa [h] at this)
  by_cases hnil : m = []
  · subst hnil
    exact readName_fst_of_snd h
  · have hend : EndsToken (m ++ rest) :=
      endsToken_spaces hnil fun c hc => hspaces c (hm.subset hc)
    rw [readName_of_endsName hend.endsName]

theorem readName_trailing {n : List Char} (hend : EndsFirmly s)
    (h : readName (s ++ (spaces ++ rest)) = (n, rest)) (v : List Char) :
    readName (s ++ ';' :: v) = (n, ';' :: v) := by
  obtain ⟨p, k, hk, hread⟩ := exists_nameTail s
  rw [hread _ (endsToken_spaces hne hspaces).endsName, Prod.mk.injEq] at h
  obtain ⟨rfl, hrest⟩ := h
  rw [hread _ (endsToken_semicolon v).endsName]
  cases hk <;> dsimp only at hrest ⊢
  case ends => exact absurd hrest.symm (rest_ne_append hne _)
  case space hu =>
    rcases hu with rfl | ⟨-, hlast⟩
    · -- an escape takes a space along, and the name ends there
      rw [nil_append, nil_append, readName_fst_of_isSuffix hspaces (dropSpace_suffix _) hrest,
        dropSpace_of_not_isSpace (by decide), readName_of_endsName (endsToken_semicolon v).endsName]
    · exact absurd (hend _ hlast).1 (by decide)
  case backslash hlast => exact absurd rfl (hend _ hlast).2

variable (hrest : rest ≠ []) {t : Token} (ht : t.isFirm = true)

include hrest ht

/-- **A token without the spaces at its end is the same token**, unless a backslash stands before
them. -/
theorem Token.read_trailing {c : Char} (hend : EndsFirmly (c :: s))
    (h : Token.read c (s ++ (spaces ++ rest)) = (t, rest)) (v : List Char) :
    Token.read c (s ++ ';' :: v) = (t, ';' :: v) := by
  have hclose : ∀ {a w}, isSpace a = false → ¬ a :: rest <:+ w ++ (spaces ++ rest) := by
    intro a w ha hsuffix
    rw [isSpace_of_isSuffix hne hspaces hsuffix] at ha
    cases ha
  obtain ⟨g, hg, hread⟩ := Token.exists_course_read hend.ne_backslash
  rw [hread _ (endsToken_spaces hne hspaces)] at h
  rw [hread _ (endsToken_semicolon v)]
  cases hg <;> dsimp only at h ⊢
  case ends t₀ m => exact absurd (Prod.mk.inj h).2.symm (rest_ne_append hne m)
  case name hu =>
    obtain ⟨rfl, hr⟩ := Prod.mk.inj h
    rw [readName_trailing hne hspaces (hend.of_suffix hu) (Prod.ext rfl hr) v]
  case backslash word t₀ hs => exact absurd rfl (hend _ hs).2
  case identLike =>
    rcases readIdentLike_rest h hrest with ⟨hname, hhead, rfl⟩ | hname | hurl
    · exact readIdentLike_of_head? (readName_trailing hne hspaces hend hname v) (by simp)
    · exact absurd (hname ▸ readName_suffix _) (hclose (by decide))
    · exact absurd (hurl.trans (readName_suffix _)) (hclose (by decide))
  case quoted quote hq u =>
    have hquote : isSpace quote = false := by
      simp only [mem_cons, not_mem_nil, or_false] at hq
      rcases hq with rfl | rfl <;> rfl
    refine absurd (isSuffix_of_readQuoted h ?_ hrest) (hclose hquote)
    rintro v rfl
    cases ht
  case comment u => exact absurd (isSuffix_of_readSlash h hrest) (hclose (by decide))
  case space c u =>
    rw [← (Prod.mk.inj h).1] at ht
    cases ht

/-- **The last token of a text without the spaces at its end**, behind the other tokens. -/
theorem Lexeme.cut_trailing {init : List Lexeme} {w : List Char} (hw : w ≠ [])
    (hend : EndsFirmly w)
    (h : cut (init.flatMap text ++ (w ++ (spaces ++ rest)))
      = init ++ ⟨t, w ++ spaces, .nowhere⟩ :: cut rest) (v : List Char) :
    cut (init.flatMap text ++ (w ++ ';' :: v)) = init ++ ⟨t, w, .nowhere⟩ :: cut (';' :: v) := by
  have hr : EndsToken (spaces ++ rest) := endsToken_spaces hne hspaces
  have hpiece : EndsPiece (';' :: v) :=
    endsPiece_cons (stop_of_mem (by simp)) (by decide) (by decide) v
  induction init with
  | nil =>
    obtain ⟨c, w', rest', heq, hread, hlexeme, -⟩ := exists_of_cut_eq_cons h
    have htext : w ++ spaces = c :: w' := congrArg text hlexeme
    obtain ⟨d, w, rfl⟩ := exists_cons_of_ne_nil hw
    obtain ⟨rfl, rfl⟩ := List.cons.inj htext
    obtain rfl : rest = rest' := by
      rw [flatMap_nil, nil_append, ← append_assoc] at heq
      exact append_cancel_left heq
    have hread' := Token.read_trailing hne hspaces hrest ht hend
      (by rw [← append_assoc]; exact hread) v
    exact cut_cons hread' (cons_append ..)
  | cons l init ih =>
    obtain ⟨c, w', rest', heq, hread, hlexeme, hrest'⟩ := exists_of_cut_eq_cons h
    have htext : l.text = c :: w' := by rw [hlexeme]
    rw [flatMap_cons, htext, append_assoc] at heq
    obtain rfl := append_cancel_left heq
    -- what is left before the spaces ends as the last token does
    obtain ⟨m, hm⟩ : ∃ m, m = init.flatMap text ++ w := ⟨_, rfl⟩
    have hlast : m.getLast? = w.getLast? := by
      rw [hm, getLast?_append_of_ne_nil _ hw]
    have hmne : m ≠ [] := by simp [hm, hw]
    have hfirm : EndsFirmly m := fun a ha => hend a (by rwa [← hlast])
    have hdrop : m.dropWhile isSpace ≠ [] := by
      intro hnil
      rw [dropWhile_eq_nil_iff] at hnil
      obtain ⟨a, ha⟩ : ∃ a, m.getLast? = some a := ⟨_, getLast?_eq_some_getLast hmne⟩
      have hspace := hnil a (mem_of_getLast? ha)
      rw [(hfirm a ha).1] at hspace
      cases hspace
    have hbehind : init.flatMap text ++ (w ++ (spaces ++ rest)) = m ++ (spaces ++ rest) := by
      rw [hm, append_assoc]
    rw [hbehind] at hread
    obtain ⟨htoken, hleaves⟩ := Token.read_exchange hr hpiece (s := w' ++ m) hfirm.ne_backslash
      (fun hnil => absurd hnil hmne) (fun _ _ => hdrop) (by rw [append_assoc]; exact hread)
    have hcut := cut_cons (Prod.ext htoken (hleaves.eq_append hmne)) (w := c :: w') (by simp)
    have hall : (l :: init).flatMap text ++ (w ++ ';' :: v) = c :: (w' ++ m ++ ';' :: v) := by
      rw [flatMap_cons, htext, hm]
      simp
    have hlater : m ++ ';' :: v = init.flatMap text ++ (w ++ ';' :: v) := by
      rw [hm, append_assoc]
    rw [hall, hcut, hlater, ih hrest', ← hlexeme, cons_append]

end

end StyleBlocks
