import StyleBlocks.Reservations

/-!
# Identifiers

A text is an identifier if it is one token and stands for itself.  This file says so without
tokens: `isIdentifier_iff` asks for a text that starts like an identifier and has nothing but
characters that stand for themselves in a name.
-/

namespace StyleBlocks

open List

variable {c : Char} {name : String} {rest s : List Char}

/-! ## Characters of names -/

theorem ne_backslash_of_isNameChar (h : isNameChar c = true) : c ≠ '\\' := by
  rintro rfl
  exact absurd h (by decide)

theorem ne_nul_of_isNameChar (h : isNameChar c = true) : c ≠ '\x00' := by
  rintro rfl
  exact absurd h (by decide)

/-- What follows a name and is no part of it. -/
def EndsName (rest : List Char) : Prop :=
  ∀ c, rest.head? = some c → isNameChar c = false ∧ c ≠ '\\' ∧ c ≠ '\x00'

theorem endsName_nil : EndsName [] := by
  intro c h
  simp at h

theorem endsName_cons (h : isNameChar c = false) (hb : c ≠ '\\') (hn : c ≠ '\x00') :
    EndsName (c :: s) := by
  intro d hd
  rw [head?_cons, Option.some.injEq] at hd
  subst hd
  exact ⟨h, hb, hn⟩

theorem readName_of_endsName (h : EndsName rest) : readName rest = ([], rest) := by
  cases rest with
  | nil => rw [readName]
  | cons c s =>
    obtain ⟨hc, hb, hn⟩ := h c rfl
    rw [readName]
    simp [hb, hn, hc]

theorem readName_cons (h : isNameChar c = true) :
    readName (c :: s) = (c :: (readName s).1, (readName s).2) := by
  have hb := ne_backslash_of_isNameChar h
  have hn := ne_nul_of_isNameChar h
  rw [readName]
  simp [hb, hn, h]

/-- **Characters that stand for themselves are read as they stand.** -/
theorem readName_append : ∀ (s rest : List Char), (∀ c ∈ s, isNameChar c = true) →
    readName (s ++ rest) = (s ++ (readName rest).1, (readName rest).2) := by
  intro s rest hs
  induction s with
  | nil => rfl
  | cons c s ih =>
    have hc : isNameChar c = true := hs c (by simp)
    rw [cons_append, readName_cons hc, ih fun d hd => hs d (by simp [hd])]
    rfl

theorem readName_append_of_endsName (hs : ∀ c ∈ s, isNameChar c = true) (hr : EndsName rest) :
    readName (s ++ rest) = (s, rest) := by
  rw [readName_append s rest hs, readName_of_endsName hr, append_nil]

/-! ## Escapes are longer than what they stand for -/

theorem readEscape_length_lt (h : s ≠ []) : (readEscape s).2.length < s.length := by
  cases s with
  | nil => exact absurd rfl h
  | cons c s =>
    unfold readEscape
    simp only
    split
    · rename_i hc
      have hd := (dropSpace_suffix ((c :: s).drop
        (((c :: s).take 6).takeWhile isHexDigit).length)).length_le
      have hone : 0 < (((c :: s).take 6).takeWhile isHexDigit).length := by
        simp [hc]
      simp only [length_drop, length_cons] at hd hone ⊢
      omega
    · split <;> simp

theorem readName_length_le (s : List Char) :
    (readName s).1.length + (readName s).2.length ≤ s.length := by
  fun_induction readName s with
  | case1 | case2 | case6 => simp
  | case3 c s _ _ r ih =>
    have hle := (readEscape_suffix s).length_le
    change (readName _).1.length + 1 + (readName _).2.length ≤ s.length + 1
    omega
  | case4 c s _ _ r ih | case5 c s _ _ _ r ih =>
    change (readName s).1.length + 1 + (readName s).2.length ≤ s.length + 1
    omega

/-- **Only characters that stand for themselves are read as they stand.**  An escape takes two
characters at least, or it is a backslash at the end of the text. -/
theorem isNameChar_of_readName_length (s : List Char)
    (hs : (readName s).1.length + (readName s).2.length = s.length) :
    ∀ c ∈ (readName s).1, isNameChar c = true := by
  have hreplacement : isNameChar replacementChar = true := by decide
  fun_induction readName s with
  | case1 | case2 | case6 => simp
  | case3 c s _ _ r ih =>
    change (readName (readEscape s).2).1.length + 1 + (readName (readEscape s).2).2.length
      = s.length + 1 at hs
    have hlen := readName_length_le (readEscape s).2
    cases s with
    | nil =>
      intro d hd
      have hr : r = ([], []) := by
        change readName [] = _
        rw [readName]
      rw [hr, mem_singleton] at hd
      rw [hd]
      exact hreplacement
    | cons e s =>
      exfalso
      have := readEscape_length_lt (cons_ne_nil e s)
      omega
  | case4 c s _ _ r ih =>
    intro d hd
    rcases mem_cons.mp hd with rfl | hd
    · exact hreplacement
    · refine ih ?_ d hd
      simp only [length_cons, r] at hs
      omega
  | case5 c s _ _ hname r ih =>
    intro d hd
    rcases mem_cons.mp hd with rfl | hd
    · exact hname
    · refine ih ?_ d hd
      simp only [length_cons, r] at hs
      omega

/-! ## Where an identifier starts -/

theorem not_isDigit_of_isNameStart (h : isNameStart c = true) : c.isDigit = false := by
  cases hd : c.isDigit with
  | false => rfl
  | true =>
    exfalso
    unfold isNameStart Char.isAlpha Char.isUpper Char.isLower at h
    simp only [Char.isDigit, Bool.or_eq_true, Bool.and_eq_true, decide_eq_true_eq, beq_iff_eq] at h hd
    rcases h with ((h | rfl) | rfl) | h
    · rcases h with h | h <;>
      · simp only [UInt32.le_iff_toNat_le] at h hd
        simp at *
        omega
    · exact absurd hd (by decide)
    · exact absurd hd (by decide)
    · simp only [UInt32.le_iff_toNat_le, Char.toNat] at h hd
      simp at *
      omega

theorem head_of_startsIdent (h : startsIdent (c :: s) = true) :
    c = '-' ∨ c = '\\' ∨ isNameStart c = true := by
  unfold startsIdent at h
  split at h
  · rename_i heq
    exact .inl (cons.inj heq).1
  · rename_i heq
    exact .inr (.inl (cons.inj heq).1)
  · rename_i heq
    exact .inr (.inr ((cons.inj heq).1 ▸ h))
  · rename_i heq
    cases heq

theorem startsUnsigned_cons (h : c ≠ '.') (s : List Char) :
    startsUnsigned (c :: s) = c.isDigit := by
  rw [startsUnsigned]
  exact fun _ _ hc => absurd hc h

theorem startsNumber_cons (h : c ≠ '+' ∧ c ≠ '-') (s : List Char) :
    startsNumber (c :: s) = startsUnsigned (c :: s) := by
  rw [startsNumber]
  · exact fun _ heq => h.1 (cons.inj heq).1
  · exact fun _ heq => h.2 (cons.inj heq).1

theorem startsIdent_cons (h : c ≠ '-') (hb : c ≠ '\\') (s : List Char) :
    startsIdent (c :: s) = isNameStart c := by
  rw [startsIdent]
  · exact fun _ _ hc => absurd hc h
  · exact fun hc => absurd hc hb

theorem startsUnsigned_of_isNameStart (h : isNameStart c = true) (s : List Char) :
    startsUnsigned (c :: s) = false := by
  rw [startsUnsigned_cons, not_isDigit_of_isNameStart h]
  rintro rfl
  exact absurd h (by decide)

theorem startsNumber_of_startsIdent (h : startsIdent s = true) : startsNumber s = false := by
  unfold startsIdent at h
  split at h
  · simp only [Bool.or_eq_true, beq_iff_eq] at h
    rcases h with (h | rfl) | rfl
    · exact startsUnsigned_of_isNameStart h _
    · rfl
    · rfl
  · rfl
  · rw [startsNumber_cons]
    · exact startsUnsigned_of_isNameStart h _
    · constructor <;> rintro rfl <;> exact absurd h (by decide)
  · simp at h

/-! ## Identifiers -/

theorem read_of_startsIdent (h : startsIdent (c :: s) = true) (hc : c = '-' → s.take 2 ≠ ['-', '>']) :
    Token.read c s = readIdentLike (c :: s) := by
  have hclose : (c == '-' && s.take 2 == ['-', '>']) = false := by
    rw [Bool.and_eq_false_imp]
    intro hdash
    rw [beq_eq_false_iff_ne]
    exact hc (eq_of_beq hdash)
  unfold Token.read
  rw [startsNumber_of_startsIdent h, hclose, h]
  simp

/-- Identifiers, functions and addresses. -/
def Token.isNameLike : Token → Bool
  | .ident _ | .function _ | .url _ | .badUrl _ => true
  | _ => false

theorem isNameLike_readMark (c : Char) (s : List Char) : (readMark c s).1.isNameLike = false := by
  unfold readMark
  split
  · rfl
  split
  case h_1 | h_2 => unfold readQuoted; split; split <;> rfl
  case h_3 =>
    unfold readHash
    split
    split
    · rfl
    · split <;> rfl
  case h_4 => unfold readAt; split <;> rfl
  case h_5 => unfold readSlash; split <;> rfl
  case h_6 => unfold readAngle; split <;> rfl
  case h_7 | h_8 | h_9 | h_10 | h_11 =>
    unfold readPair
    split
    · split <;> rfl
    · rfl
  all_goals rfl

theorem isNameLike_readNumeric (s : List Char) : (readNumeric s).1.isNameLike = false := by
  unfold readNumeric
  split
  split
  · rfl
  · split <;> rfl

/-- **Only what starts like an identifier is read as one**, or as a function or an address. -/
theorem readIdentLike_of_read {t : Token} (h : Token.read c s = (t, rest))
    (ht : t.isNameLike = true) :
    startsIdent (c :: s) = true ∧ readIdentLike (c :: s) = (t, rest) := by
  unfold Token.read at h
  split at h
  · have hnumeric := isNameLike_readNumeric (c :: s)
    rw [h, ht] at hnumeric
    cases hnumeric
  split at h
  · obtain rfl := (Prod.mk.inj h).1
    cases ht
  split at h
  · exact ⟨‹_›, h⟩
  · have hmark := isNameLike_readMark c s
    rw [h, ht] at hmark
    cases hmark

theorem isUrl_of_readUrl {t : Token} (h : readUrl s = some (t, rest)) :
    (∃ v, t = .url v) ∨ ∃ v, t = .badUrl v := by
  unfold readUrl at h
  dsimp only at h
  split at h
  · simp at h
  · simp at h
  · split at h <;> cases h
    · exact .inl ⟨_, rfl⟩
    · exact .inr ⟨_, rfl⟩

theorem readIdentLike_cases (s : List Char) :
    readIdentLike s = (.ident (String.ofList (readName s).1), (readName s).2) ∨
      (∃ q, readIdentLike s = (.function (String.ofList (readName s).1), q)) ∨
      ∃ v q, readIdentLike s = (.url v, q) ∨ readIdentLike s = (.badUrl v, q) := by
  unfold readIdentLike
  rcases readName s with ⟨n, q⟩
  dsimp only
  split
  · rename_i q
    split
    · cases hu : readUrl q with
      | none => exact .inr (.inl ⟨q, rfl⟩)
      | some p =>
        obtain ⟨t, q'⟩ := p
        rcases isUrl_of_readUrl hu with ⟨v, rfl⟩ | ⟨v, rfl⟩
        · exact .inr (.inr ⟨v, q', .inl rfl⟩)
        · exact .inr (.inr ⟨v, q', .inr rfl⟩)
    · exact .inr (.inl ⟨q, rfl⟩)
  · exact .inl rfl

theorem readIdentLike_eq_ident (h : readIdentLike s = (.ident name, rest)) :
    readName s = (name.toList, rest) := by
  rcases readIdentLike_cases s with h' | ⟨_, h'⟩ | ⟨_, _, h' | h'⟩ <;> rw [h'] at h <;> cases h
  rw [String.toList_ofList]

theorem readName_of_read_eq_ident (h : Token.read c s = (.ident name, rest)) :
    startsIdent (c :: s) = true ∧ readName (c :: s) = (name.toList, rest) := by
  obtain ⟨hstart, hread⟩ := readIdentLike_of_read h rfl
  exact ⟨hstart, readIdentLike_eq_ident hread⟩

theorem readIdentLike_of_endsName (hs : ∀ c ∈ s, isNameChar c = true) (hr : EndsName rest)
    (hp : rest.head? ≠ some '(') :
    readIdentLike (s ++ rest) = (.ident (String.ofList s), rest) := by
  unfold readIdentLike
  rw [readName_append_of_endsName hs hr]
  dsimp only
  split
  · simp at hp
  · rfl

/-- **An identifier starts like one and has only characters that stand for themselves.** -/
theorem isIdentifier_iff {text : String} : isIdentifier text = true ↔
    startsIdent text.toList = true ∧ ∀ c ∈ text.toList, isNameChar c = true := by
  unfold isIdentifier
  constructor
  · intro h
    cases hs : text.toList with
    | nil => simp [hs, Lexeme.list] at h
    | cons c s =>
      rw [hs, Lexeme.list] at h
      split at h
      · rename_i l hl
        rw [List.cons.injEq] at hl
        obtain ⟨rfl, hnil⟩ := hl
        have hrest : (Token.read c s).2 = [] := by
          cases hr : (Token.read c s).2 with
          | nil => rfl
          | cons d r => rw [hr, Lexeme.list] at hnil; simp at hnil
        have htok : (Token.read c s).1 = .ident text := by simpa using h
        have hread : Token.read c s = (.ident text, []) := Prod.ext htok hrest
        obtain ⟨hstart, hname⟩ := readName_of_read_eq_ident hread
        refine ⟨hstart, ?_⟩
        have hall := isNameChar_of_readName_length (c :: s) (by rw [hname, hs]; simp)
        rw [hname, hs] at hall
        exact hall
      · simp at h
  · rintro ⟨hstart, hall⟩
    cases hs : text.toList with
    | nil => simp [hs, startsIdent] at hstart
    | cons c s =>
      rw [hs] at hstart hall
      have hclose : c = '-' → s.take 2 ≠ ['-', '>'] := by
        intro _ he
        have hmem : '>' ∈ s := mem_of_mem_take (by rw [he]; simp)
        exact absurd (hall '>' (mem_cons_of_mem c hmem)) (by decide)
      have hread : Token.read c s = (.ident text, []) := by
        rw [read_of_startsIdent hstart hclose]
        have := readIdentLike_of_endsName hall endsName_nil (by simp)
        rw [append_nil] at this
        rw [this, ← hs, String.ofList_toList]
      simp [hread, Lexeme.list]

theorem startsIdent_of_isNameStart (h : isNameStart c = true) (s : List Char) :
    startsIdent (c :: s) = true := by
  rw [startsIdent_cons, h] <;> rintro rfl <;> exact absurd h (by decide)

theorem startsIdent_append (h : startsIdent s = true) (hall : ∀ c ∈ s, isNameChar c = true) :
    startsIdent (s ++ rest) = true := by
  unfold startsIdent at h
  split at h
  · exact h
  · exact absurd (hall '\\' (by simp)) (by decide)
  · exact startsIdent_of_isNameStart h _
  · simp at h

theorem read_append_of_startsIdent (h : startsIdent (c :: s) = true)
    (hall : ∀ d ∈ c :: s, isNameChar d = true) (hr : rest.head? ≠ some '>') :
    Token.read c (s ++ rest) = readIdentLike (c :: s ++ rest) := by
  refine read_of_startsIdent (startsIdent_append h hall) ?_
  rintro rfl he
  rcases s with _ | ⟨d, _ | ⟨e, s⟩⟩
  · exact absurd h (by decide)
  · cases rest with
    | nil => simp at he
    | cons r rest => simp_all
  · obtain rfl : e = '>' := by simp at he; exact he.2
    exact absurd (hall '>' (by simp)) (by decide)

theorem isFiller_readIdentLike (s : List Char) : (readIdentLike s).1.isFiller = false := by
  rcases readIdentLike_cases s with h | ⟨_, h⟩ | ⟨_, _, h | h⟩ <;> rw [h] <;> rfl

theorem toList_of_readIdentLike_eq_function (h : readIdentLike s = (.function name, rest)) :
    name.toList = (readName s).1 := by
  rcases readIdentLike_cases s with h' | ⟨_, h'⟩ | ⟨_, _, h' | h'⟩ <;> rw [h'] at h <;> cases h
  exact String.toList_ofList

theorem isIdentifier_append {tail : String} (h : isIdentifier name = true)
    (ht : ∀ c ∈ tail.toList, isNameChar c = true) : isIdentifier (name ++ tail) = true := by
  obtain ⟨hstart, hall⟩ := isIdentifier_iff.mp h
  refine isIdentifier_iff.mpr ⟨?_, ?_⟩
  · rw [String.toList_append]
    exact startsIdent_append hstart hall
  · intro c hc
    rw [String.toList_append, mem_append] at hc
    exact hc.elim (hall c) (ht c)

theorem isIdentifier_numbered (h : isIdentifier name = true) (n : Nat) :
    isIdentifier (Reservations.numbered name n) = true := by
  unfold Reservations.numbered
  rw [String.append_assoc]
  refine isIdentifier_append h ?_
  intro c hc
  rw [String.toList_append, mem_append] at hc
  rcases hc with hc | hc
  · have : c = '-' := by simpa using hc
    subst this
    decide
  have hd : c.isDigit = true := by
    refine Nat.isDigit_of_mem_toDigits (b := 10) (n := n) (by decide) (by decide) ?_
    simpa using hc
  simp [isNameChar, Char.isAlphanum, hd]

theorem toList_ne_nil_of_isIdentifier (h : isIdentifier name = true) : name.toList ≠ [] := by
  intro hnil
  have := (isIdentifier_iff.mp h).1
  rw [hnil] at this
  exact absurd this (by decide)

/-! ## The character with code zero -/

theorem charOfCode_ne_nul (n : Nat) : charOfCode n ≠ '\x00' := by
  unfold charOfCode
  split
  · rename_i h
    intro he
    have hn : (Char.ofNat n).toNat = n := by
      rw [Char.ofNat, dif_pos h.2]
      rfl
    rw [he] at hn
    exact h.1 hn.symm
  · decide

theorem readEscape_ne_nul (s : List Char) : (readEscape s).1 ≠ '\x00' := by
  unfold readEscape
  split
  · decide
  split
  · exact charOfCode_ne_nul _
  split
  · exact charOfCode_ne_nul 0
  · rename_i h
    simpa using h

theorem readName_ne_nul (s : List Char) : '\x00' ∉ (readName s).1 := by
  fun_induction readName s with
  | case1 | case2 | case6 => simp
  | case3 c s _ _ r ih =>
    rw [mem_cons, not_or]
    exact ⟨(readEscape_ne_nul s).symm, ih⟩
  | case4 c s _ _ r ih =>
    rw [mem_cons, not_or]
    exact ⟨by decide, ih⟩
  | case5 c s _ hn _ r ih =>
    rw [mem_cons, not_or]
    exact ⟨fun he => hn (by simp [← he]), ih⟩

theorem readString_ne_nul (quote : Char) (s : List Char) : '\x00' ∉ (readString quote s).2.1 := by
  fun_induction readString quote s with
  | case1 | case2 | case3 | case4 => simp
  | case5 c s _ _ _ _ _ ih => exact ih
  | case6 c s _ _ _ _ _ r ih =>
    rw [mem_cons, not_or]
    exact ⟨(readEscape_ne_nul s).symm, ih⟩
  | case7 c s _ _ _ r ih =>
    rw [mem_cons, not_or]
    refine ⟨?_, ih⟩
    split
    · decide
    · rename_i hn
      exact fun he => hn (by simp [← he])

end StyleBlocks
