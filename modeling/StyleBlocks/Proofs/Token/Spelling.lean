import Mathlib.Data.List.Perm.Subperm
import StyleBlocks.Proofs.Token.Boundaries

/-!
# What tokens take from a text

A name is never longer than the characters it is read from, and a mark that no name holds by itself
is read only behind a backslash, so it is not lost.  A text that is made of names and marks therefore
reads back as it was made only where every name stands for itself.
-/

namespace StyleBlocks

open List

variable {found : List Lexeme} {location : Location} {pieces : List Piece} {quote : Char}
  {s : List Char} {t : Token}

/-! ## Marks -/

/-- A character that stands for itself in no name, and that no escape takes without giving it. -/
structure Mark (x : Char) : Prop where
  name : isNameChar x = false
  hex : isHexDigit x = false
  space : isSpace x = false
  backslash : x ≠ '\\'
  nul : x ≠ '\x00'

section

variable {x : Char} (hx : Mark x)

include hx

theorem count_dropSpace (s : List Char) : (dropSpace s).count x = s.count x := by
  have hne : ∀ c, isSpace c = true → c ≠ x := by
    rintro c hc rfl
    rw [hx.space] at hc
    cases hc
  fun_cases dropSpace s with
  | case1 s => simp [hne '\r' (by decide), hne '\n' (by decide)]
  | case2 c s _ hc => simp [hne c hc]
  | case3 | case4 => rfl

theorem count_readEscape (s : List Char) :
    s.count x ≤ ((readEscape s).1 :: (readEscape s).2).count x := by
  fun_cases readEscape s with
  | case1 => simp
  | case2 c s hc digits =>
    have hdigits : digits.count x = 0 := by
      rw [count_eq_zero]
      intro hmem
      have := all_eq_true.1 (all_takeWhile (l := (c :: s).take 6)) x hmem
      rw [hx.hex] at this
      cases this
    obtain ⟨t, ht⟩ : digits <+: c :: s := (List.takeWhile_prefix _).trans (List.take_prefix ..)
    dsimp only
    rw [← ht, drop_left, count_append, hdigits, count_cons, count_dropSpace hx]
    omega
  | case3 c s _ hz =>
    have hne : c ≠ x := by
      rw [eq_of_beq hz]
      exact hx.nul.symm
    dsimp only
    rw [count_cons_of_ne hne, count_cons]
    omega
  | case4 c s => exact Nat.le_refl _

/-- **No mark gets lost in a name.** -/
theorem count_readName (s : List Char) :
    s.count x ≤ (readName s).1.count x + (readName s).2.count x := by
  fun_induction readName s with
  | case1 | case2 | case6 => simp
  | case3 c s hc _ r ih =>
    have hne : c ≠ x := by
      rw [eq_of_beq hc]
      exact hx.backslash.symm
    have he := count_readEscape hx s
    rw [count_cons] at he
    dsimp only [r]
    rw [count_cons_of_ne hne, count_cons]
    omega
  | case4 c s _ hz r ih =>
    have hne : c ≠ x := by
      rw [eq_of_beq hz]
      exact hx.nul.symm
    dsimp only [r]
    rw [count_cons_of_ne hne, count_cons]
    omega
  | case5 c s _ _ _ r ih =>
    dsimp only [r]
    rw [count_cons, count_cons]
    omega

/-- **A name that reaches behind a mark has a backslash right before it**, and goes on behind it. -/
theorem readName_append_mark (u v : List Char)
    (h : (readName (u ++ x :: v)).2.length ≤ v.length) : ∃ u' out, u = u' ++ ['\\'] ∧
      readName (u ++ x :: v) = (out ++ x :: (readName v).1, (readName v).2) := by
  have hend : EndsName (x :: v) := endsName_cons hx.name hx.backslash hx.nul
  obtain ⟨out, k, hk, hread⟩ := exists_nameTail u
  rw [hread _ hend] at h ⊢
  cases hk <;> dsimp only at h ⊢
  case ends =>
    rw [length_append, length_cons] at h
    omega
  case space w hw =>
    have hdrop : dropSpace (w ++ x :: v) = x :: v := by
      rcases hw with rfl | ⟨rfl, -⟩
      · exact dropSpace_of_not_isSpace hx.space v
      · refine dropSpace_of_isSpace rfl fun _ hn => ?_
        obtain rfl : x = '\n' := Option.some.inj hn
        exact absurd hx.space (by decide)
    rw [hdrop, readName_of_endsName hend, length_cons] at h
    omega
  case backslash hlast =>
    obtain ⟨u', rfl⟩ := getLast?_eq_some_iff.1 hlast
    have hescape : readEscape (x :: v) = (x, v) := by
      simp [readEscape, hx.hex, hx.nul]
    have hspace := hx.space
    rw [isSpace, Bool.or_eq_false_iff] at hspace
    rw [readName_backslash (s := x :: v) hspace.2 hescape]
    exact ⟨u', out, rfl, rfl⟩

theorem count_readString (hq : quote ≠ x) (s : List Char) :
    (readString quote s).1 = false →
      s.count x ≤ (readString quote s).2.1.count x + (readString quote s).2.2.count x := by
  fun_induction readString quote s with
  | case1 | case3 => simp
  | case2 c s hc =>
    intro _
    rw [eq_of_beq hc, count_cons_of_ne hq]
    simp
  | case4 c s _ _ hc he =>
    intro _
    rw [eq_of_beq hc, isEmpty_iff.1 he, count_cons_of_ne hx.backslash.symm]
    simp
  | case5 c s _ _ hc _ _ ih =>
    intro h
    have := ih h
    rw [count_dropSpace hx] at this
    rw [eq_of_beq hc, count_cons_of_ne hx.backslash.symm]
    exact this
  | case6 c s _ _ hc _ _ r ih =>
    intro h
    have := ih h
    have he := count_readEscape hx s
    rw [count_cons] at he
    dsimp only [r]
    rw [eq_of_beq hc, count_cons_of_ne hx.backslash.symm, count_cons]
    omega
  | case7 c s _ _ _ r ih =>
    intro h
    have := ih h
    dsimp only [r]
    split
    · rename_i hz
      rw [eq_of_beq hz, count_cons_of_ne hx.nul.symm, count_cons]
      omega
    · rw [count_cons, count_cons]
      omega

end

theorem readString_length_le (quote : Char) (s : List Char) :
    (readString quote s).2.1.length + (readString quote s).2.2.length ≤ s.length := by
  fun_induction readString quote s with
  | case1 | case2 | case3 | case4 => simp
  | case5 c s _ _ _ _ _ ih =>
    have := (dropSpace_suffix s).length_le
    rw [length_cons]
    omega
  | case6 c s _ _ _ _ _ r ih =>
    have := (readEscape_suffix s).length_le
    dsimp only [r]
    rw [length_cons, length_cons]
    omega
  | case7 c s _ _ _ r ih =>
    dsimp only [r]
    rw [length_cons, length_cons]
    omega

/-! ## Which token a text starts with -/

/-- Numbers, names and what is made of them. -/
def Token.IsWord : Token → Prop
  | .number _ | .percentage _ | .dimension _ _ | .commentClose => True
  | .ident _ | .function _ | .url _ | .badUrl _ => True
  | _ => False

theorem Token.IsWord.isFiller (h : t.IsWord) : t.isFiller = false := by
  cases t with
  | space | comment => cases h
  | _ => rfl

theorem Token.IsWord.ne_comma (h : t.IsWord) : t ≠ .comma := by
  rintro rfl
  exact h

theorem isWord_readNumeric (s : List Char) : (readNumeric s).1.IsWord := by
  unfold readNumeric
  split
  split
  · trivial
  · split <;> trivial

theorem isWord_readIdentLike (s : List Char) : (readIdentLike s).1.IsWord := by
  rcases readIdentLike_cases s with h | ⟨_, h⟩ | ⟨_, _, h | h⟩ <;> rw [h] <;> trivial

theorem read_eq_readMark {c : Char} (h : ¬ (Token.read c s).1.IsWord) :
    Token.read c s = readMark c s := by
  unfold Token.read at h ⊢
  split at h
  · exact absurd (isWord_readNumeric _) h
  split at h
  · exact absurd trivial h
  split at h
  · exact absurd (isWord_readIdentLike _) h
  · rename_i h₁ h₂ h₃
    rw [if_neg h₁, if_neg h₂, if_neg h₃]

/-- How the characters that a mark, a bracket, a string, a space or a comment is read from look. -/
def Token.Reads (c : Char) (s rest : List Char) : Token → Prop
  | .delim d => d = c ∧ rest = s
  | .opener b => c = b.opening ∧ rest = s
  | .closer b => c = b.closing ∧ rest = s
  | .semicolon => c = ';' ∧ rest = s
  | .string v => (c = '"' ∨ c = '\'') ∧ readString c s = (false, v.toList, rest)
  | .badString v => (c = '"' ∨ c = '\'') ∧ readString c s = (true, v.toList, rest)
  | .space _ => isSpace c = true ∧ rest = s.dropWhile isSpace
  | .comment v => c = '/' ∧ ∃ t, s = '*' :: t ∧ readComment t = (v.toList, rest)
  | _ => True

theorem reads_readQuoted (hq : quote = '"' ∨ quote = '\'') (s : List Char) :
    (readQuoted quote s).1.Reads quote s (readQuoted quote s).2 := by
  unfold readQuoted
  rcases h : readString quote s with ⟨_ | _, value, rest⟩
  all_goals exact ⟨hq, by rw [h, String.toList_ofList]⟩

theorem reads_readPair (c next : Char) (ht : ∀ c s rest, t.Reads c s rest) (s : List Char) :
    (readPair c next t s).1.Reads c s (readPair c next t s).2 := by
  unfold readPair
  split
  · split
    · exact ht ..
    · exact ⟨rfl, rfl⟩
  · exact ⟨rfl, rfl⟩

theorem reads_readMark (c : Char) (s : List Char) :
    (readMark c s).1.Reads c s (readMark c s).2 := by
  unfold readMark
  split
  · exact ⟨‹_›, rfl⟩
  split
  case h_1 => exact reads_readQuoted (.inl rfl) s
  case h_2 => exact reads_readQuoted (.inr rfl) s
  case h_3 =>
    unfold readHash
    split
    split
    · trivial
    · split
      · trivial
      · exact ⟨rfl, rfl⟩
  case h_4 =>
    unfold readAt
    split
    · trivial
    · exact ⟨rfl, rfl⟩
  case h_5 =>
    unfold readSlash
    split
    · rename_i t
      exact ⟨rfl, t, rfl, by rw [String.toList_ofList]⟩
    · exact ⟨rfl, rfl⟩
  case h_6 =>
    unfold readAngle
    split
    · trivial
    · exact ⟨rfl, rfl⟩
  case h_7 | h_8 | h_9 | h_10 | h_11 =>
    refine reads_readPair _ _ ?_ s
    exact fun _ _ _ => trivial
  case h_12 | h_13 | h_14 | h_15 | h_16 | h_17 | h_20 | h_21 =>
    exact ⟨rfl, rfl⟩
  all_goals trivial

/-- **The characters of a mark, a bracket, a string, a space or a comment.** -/
theorem Token.reads_read (c : Char) (s : List Char) :
    (Token.read c s).1.Reads c s (Token.read c s).2 := by
  by_cases h : (Token.read c s).1.IsWord
  · generalize Token.read c s = r at h ⊢
    obtain ⟨t, rest⟩ := r
    cases t with
    | space | comment | badString => cases h
    | _ => trivial
  · rw [read_eq_readMark h]
    exact reads_readMark c s

/-! ## Pieces of a text -/

/-- A piece that a text is made of: a name, a value, which may stand in quotes, or a character
between names. -/
inductive Piece where
  | name (text : String)
  | value (text : String)
  | mark (char : Char)
deriving DecidableEq, Repr

namespace Piece

def chars : Piece → List Char
  | name text | value text => text.toList
  | mark char => [char]

def text? : Piece → Option String
  | name text | value text => some text
  | mark _ => none

theorem chars_of_text? {p : Piece} {text : String} (h : p.text? = some text) :
    p.chars = text.toList := by
  cases p <;> cases h <;> rfl

end Piece

namespace Lexeme

def Shows (l : Lexeme) : Piece → Prop
  | .name text => l.token = .ident text
  | .value text => l.token = .ident text ∨ l.token = .string text
  | .mark char => l.token = .delim char ∨ ∃ b : Bracket, l.token = .opener b ∧ char = b.opening

variable {l : Lexeme} {p : Piece} {name : String}

theorem exists_read_of_mem (h : l ∈ list location s) : ∃ c t, c :: t <:+ s ∧
    l.token = (Token.read c t).1 ∧ l.text ++ (Token.read c t).2 = c :: t := by
  fun_induction list location s with
  | case1 => cases h
  | case2 location c s rest text ih =>
    have hrest : rest <:+ c :: s := (Token.read_suffix c s).trans (suffix_cons ..)
    rcases mem_cons.1 h with rfl | h
    · exact ⟨c, s, suffix_refl _, rfl, consumed_append hrest⟩
    · obtain ⟨d, t, hsuffix, htoken, htext⟩ := ih h
      exact ⟨d, t, hsuffix.trans hrest, htoken, htext⟩

theorem readName_of_token_eq_ident {c : Char} {t : List Char} (h : (Token.read c t).1 = .ident name) :
    startsIdent (c :: t) = true ∧ readName (c :: t) = (name.toList, (Token.read c t).2) :=
  readName_of_read_eq_ident (Prod.ext h rfl)

theorem text_ne_nil (h : l ∈ list location s) : l.text ≠ [] := by
  obtain ⟨c, t, -, -, htext⟩ := exists_read_of_mem h
  intro hnil
  have := (Token.read_suffix c t).length_le
  rw [hnil, nil_append] at htext
  rw [htext, length_cons] at this
  omega

theorem Shows.token {text : String} (h : l.Shows p) (hp : p.text? = some text) :
    l.token = .ident text ∨ l.token = .string text := by
  cases p <;> cases hp
  · exact .inl h
  · exact h

theorem Shows.length_le (hl : l ∈ list location s) (h : l.Shows p) :
    p.chars.length ≤ l.text.length ∧
      ∀ v, l.token = .string v → v.toList.length < l.text.length := by
  have hpos := length_pos_of_ne_nil (text_ne_nil hl)
  obtain ⟨c, t, -, htoken, htext⟩ := exists_read_of_mem hl
  have hlen := congrArg length htext
  rw [length_append, length_cons] at hlen
  have hstring : ∀ v, l.token = .string v → v.toList.length < l.text.length := by
    intro v hv
    have hread := Token.reads_read c t
    rw [← htoken, hv] at hread
    have := readString_length_le c t
    rw [hread.2] at this
    dsimp only at this
    omega
  refine ⟨?_, hstring⟩
  cases hp : p.text? with
  | none =>
    cases p <;> cases hp
    exact hpos
  | some v =>
    rw [Piece.chars_of_text? hp]
    rcases h.token hp with h | h
    · obtain ⟨-, hname⟩ := readName_of_token_eq_ident (htoken.symm.trans h)
      have := readName_length_le (c :: t)
      rw [hname, length_cons] at this
      dsimp only at this
      omega
    · exact Nat.le_of_lt (hstring v h)

theorem Shows.count_le {x : Char} (hx : Mark x) (hquotes : '"' ≠ x ∧ '\'' ≠ x)
    (hl : l ∈ list location s) (h : l.Shows p) : l.text.count x ≤ p.chars.count x := by
  obtain ⟨c, t, -, htoken, htext⟩ := exists_read_of_mem hl
  have hcount := congrArg (count x) htext
  have hread := Token.reads_read c t
  rw [← htoken] at hread
  rw [count_append] at hcount
  cases hp : p.text? with
  | none =>
    cases p <;> cases hp
    rename_i char
    have htext' : char = c ∧ (Token.read c t).2 = t := by
      rcases h with h | ⟨b, h, rfl⟩ <;> rw [h] at hread
      · exact hread
      · exact ⟨hread.1.symm, hread.2⟩
    rw [htext'.2, count_cons] at hcount
    rw [Piece.chars, htext'.1, count_singleton]
    omega
  | some v =>
    rw [Piece.chars_of_text? hp]
    rcases h.token hp with h | h
    · obtain ⟨-, hname⟩ := readName_of_token_eq_ident (htoken.symm.trans h)
      have := count_readName hx (c :: t)
      rw [hname] at this
      dsimp only at this
      omega
    rw [h] at hread
    have hq : c ≠ x := by
      rcases hread.1 with rfl | rfl
      · exact hquotes.1
      · exact hquotes.2
    have := count_readString hx hq t (by rw [hread.2])
    rw [hread.2] at this
    rw [count_cons_of_ne hq] at hcount
    dsimp only at this
    omega

theorem Shows.isNameChar (hl : l ∈ list location s) (h : l.Shows p) (hp : p.text? = some name)
    (hlen : l.text.length = name.toList.length) :
    l.token = .ident name ∧ ∀ c ∈ name.toList, isNameChar c = true := by
  have hstring := (h.length_le hl).2
  obtain ⟨c, t, -, htoken, htext⟩ := exists_read_of_mem hl
  rcases h.token hp with h | h
  · obtain ⟨-, hname⟩ := readName_of_token_eq_ident (htoken.symm.trans h)
    have hall := isNameChar_of_readName_length (c :: t) (by
      rw [hname, ← htext, length_append, hlen])
    rw [hname] at hall
    exact ⟨h, hall⟩
  · exact absurd hlen (Nat.ne_of_gt (hstring name h))

end Lexeme

/-! ## Texts made of pieces -/

/-- The pieces are not longer than the tokens that show them; where they are as long, every one is,
and no mark is found in the tokens that the pieces do not have. -/
theorem forall₂_shows (h : Forall₂ Lexeme.Shows found pieces)
    (hfound : ∀ l ∈ found, l ∈ Lexeme.list location s) :
    (pieces.flatMap Piece.chars).length ≤ (found.flatMap Lexeme.text).length ∧
      (∀ x, Mark x → '"' ≠ x ∧ '\'' ≠ x →
        (found.flatMap Lexeme.text).count x ≤ (pieces.flatMap Piece.chars).count x) ∧
      ((found.flatMap Lexeme.text).length ≤ (pieces.flatMap Piece.chars).length →
        ∀ p ∈ pieces, ∃ l ∈ found, l.Shows p ∧ l.text.length = p.chars.length) := by
  induction h with
  | nil => simp
  | @cons l p found pieces hp _ ih =>
    obtain ⟨hlen, hcount, hall⟩ := ih fun l' hl' => hfound l' (by simp [hl'])
    have hl := hfound l (by simp)
    have hfirst := (hp.length_le hl).1
    simp only [flatMap_cons, length_append, count_append]
    refine ⟨by omega, fun x hx hq => ?_, fun hle q hq => ?_⟩
    · have := hcount x hx hq
      have := hp.count_le hx hq hl
      omega
    rcases mem_cons.1 hq with rfl | hq
    · exact ⟨l, by simp, hp, by omega⟩
    · obtain ⟨l', hl', hshows⟩ := hall (by omega) q hq
      exact ⟨l', by simp [hl'], hshows⟩

theorem mark_closing : Mark ']' := ⟨by decide, by decide, by decide, by decide, by decide⟩

theorem startsIdent_readName (h : startsIdent s = true) (hs : '\\' ∉ s) :
    startsIdent (readName s).1 = true := by
  have hstart : ∀ c t, isNameStart c = true → c ≠ '\\' →
      ∃ d, isNameStart d = true ∧ (readName (c :: t)).1 = d :: (readName t).1 := by
    intro c t hc hb
    rw [readName]
    by_cases hz : c = '\x00'
    · exact ⟨replacementChar, by decide, by simp [hz]⟩
    have hn : isNameChar c = true := by
      simp only [isNameStart, isNameChar, Char.isAlphanum, Bool.or_eq_true, beq_iff_eq,
        decide_eq_true_eq, hz] at hc ⊢
      tauto
    exact ⟨c, hc, by simp [hb, hz, hn]⟩
  unfold startsIdent at h
  split at h
  · rename_i c t
    rw [readName_cons (by decide)]
    have hb : c ≠ '\\' := by
      rintro rfl
      exact hs (by simp)
    simp only [Bool.or_eq_true, beq_iff_eq, hb, or_false] at h
    rcases h with h | rfl
    · obtain ⟨d, hd, heq⟩ := hstart c t h hb
      simp [startsIdent, heq, hd]
    · rw [readName_cons (by decide)]
      rfl
  · exact absurd (by simp) hs
  · rename_i c t _ _
    obtain ⟨d, hd, heq⟩ := hstart c t h fun hc => hs (by simp [hc])
    rw [heq]
    exact startsIdent_of_isNameStart hd _
  · cases h

/-- **Where all pieces of a text are found among its tokens, its names are identifiers**, even if
the text has a closing bracket behind them.  The bracket is in none of the tokens that show the
pieces, since it would not get lost there; so these have no more characters than the pieces. -/
theorem isIdentifier_of_shows {tail : List Char} (hfound : found.Subperm (Lexeme.list location s))
    (hshows : Forall₂ Lexeme.Shows found pieces) (hs : s = pieces.flatMap Piece.chars ++ tail)
    (htail : tail = [] ∨ tail = [']']) (hmarks : ∀ c, .mark c ∈ pieces → c ≠ '\\') :
    ∀ p ∈ pieces, ∀ name, p.text? = some name → isIdentifier name = true := by
  have hsub := hfound.subset
  obtain ⟨hlen, hcount, hall⟩ := forall₂_shows hshows hsub
  obtain ⟨rearranged, hrearranged, hsublist⟩ := hfound
  obtain ⟨others, hothers⟩ := hsublist.exists_perm_append
  have hperm := hothers.trans (hrearranged.append_right others)
  -- the characters are those of the pieces' tokens and those of the others
  have htext : s.Perm (found.flatMap Lexeme.text ++ others.flatMap Lexeme.text) := by
    have := hperm.flatMap_right Lexeme.text
    rwa [Lexeme.flatMap_text_list, flatMap_append] at this
  have hle : (found.flatMap Lexeme.text).length ≤ (pieces.flatMap Piece.chars).length := by
    have htotal := htext.length_eq
    rw [hs, length_append, length_append] at htotal
    rcases htail with rfl | rfl
    · simp only [length_nil] at htotal
      omega
    have hclosing := htext.count_eq ']'
    rw [hs, count_append, count_append] at hclosing
    have := hcount ']' mark_closing ⟨by decide, by decide⟩
    have := count_le_length (a := ']') (l := others.flatMap Lexeme.text)
    simp only [length_singleton, count_singleton_self] at htotal hclosing
    omega
  have hnames : ∀ p ∈ pieces, ∀ name, p.text? = some name → ∃ l ∈ found,
      l.token = .ident name ∧ ∀ c ∈ name.toList, isNameChar c = true := by
    intro p hp name hname
    obtain ⟨l, hl, hshow, hlength⟩ := hall hle p hp
    rw [Piece.chars_of_text? hname] at hlength
    exact ⟨l, hl, hshow.isNameChar (hsub hl) hname hlength⟩
  have hbackslash : '\\' ∉ s := by
    rw [hs, mem_append, mem_flatMap]
    rintro (⟨p, hp, hc⟩ | hc)
    · cases htext : p.text? with
      | none =>
        cases p <;> cases htext
        exact hmarks _ hp (mem_singleton.1 hc).symm
      | some name =>
        obtain ⟨-, -, -, hchars⟩ := hnames p hp name htext
        rw [Piece.chars_of_text? htext] at hc
        exact absurd (hchars _ hc) (by decide)
    · rcases htail with rfl | rfl <;> simp at hc
  intro p hp name hname
  obtain ⟨l, hl, hident, hchars⟩ := hnames p hp name hname
  refine isIdentifier_iff.2 ⟨?_, hchars⟩
  obtain ⟨c, t, hsuffix, htoken, -⟩ := Lexeme.exists_read_of_mem (hsub hl)
  obtain ⟨hstart, hread⟩ := Lexeme.readName_of_token_eq_ident (htoken.symm.trans hident)
  have := startsIdent_readName hstart fun hc => hbackslash (hsuffix.subset hc)
  rwa [hread] at this

end StyleBlocks
