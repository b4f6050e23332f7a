import StyleBlocks.Text.Location
import StyleBlocks.Token.Printer

/-!
# Reading tokens

A text is cut into tokens from left to right.  Each reader below takes the characters that are
left and gives what it read and what is left then, which is always a suffix of what it was given
(the lemmas `..._suffix`).  Reading never fails: what ends too early ends with the text.

* `Token.read_suffix`: the first character at least is consumed.
* `Lexeme.flatMap_text_list`: the characters of the tokens make up the text.
-/

namespace StyleBlocks

open List

/-! ## Escapes -/

/-- The text without one space at its start; a carriage return and a line feed are one. -/
def dropSpace : List Char → List Char
  | '\r' :: '\n' :: s => s
  | c :: s => if isSpace c then s else c :: s
  | [] => []

theorem dropSpace_suffix (s : List Char) : dropSpace s <:+ s := by
  fun_cases dropSpace s
  · exact (suffix_cons ..).trans (suffix_cons ..)
  · exact suffix_cons ..
  · exact suffix_refl _
  · exact suffix_refl _

def startsWithNewline : List Char → Bool
  | c :: _ => isNewline c
  | [] => false

def isHexDigit (c : Char) : Bool :=
  c.isDigit || ('a' ≤ c && c ≤ 'f') || ('A' ≤ c && c ≤ 'F')

def hexDigit (c : Char) : Nat :=
  if c.isDigit then c.toNat - '0'.toNat else c.toLower.toNat - 'a'.toNat + 10

/-- The character with the given code; zero and what is no code give the replacement character. -/
def charOfCode (n : Nat) : Char :=
  if n ≠ 0 ∧ n.isValidChar then Char.ofNat n else replacementChar

/-- The character that an escape stands for, read from behind its backslash: up to six hexadecimal
digits and one space, or any other character for itself. -/
def readEscape : List Char → Char × List Char
  | [] => (replacementChar, [])
  | c :: s =>
    if isHexDigit c then
      let digits := ((c :: s).take 6).takeWhile isHexDigit
      (charOfCode (digits.foldl (fun v d => 16 * v + hexDigit d) 0),
        dropSpace ((c :: s).drop digits.length))
    else if c == '\x00' then (replacementChar, s)
    else (c, s)

theorem readEscape_suffix (s : List Char) : (readEscape s).2 <:+ s := by
  fun_cases readEscape s
  · exact suffix_refl _
  · exact (dropSpace_suffix _).trans (drop_suffix ..)
  · exact suffix_cons ..
  · exact suffix_cons ..

/-! ## Names -/

def isNameStart (c : Char) : Bool :=
  c.isAlpha || c == '_' || c == '\x00' || 0x80 ≤ c.toNat

def startsIdent : List Char → Bool
  | '-' :: c :: _ => isNameStart c || c == '-' || c == '\\'
  | '\\' :: s => !startsWithNewline s
  | c :: _ => isNameStart c
  | [] => false

/-- The longest name at the start of the text, with its escapes read. -/
def readName : List Char → List Char × List Char
  | [] => ([], [])
  | c :: s =>
    if c == '\\' then
      if startsWithNewline s then ([], c :: s)
      else
        let r := readName (readEscape s).2
        ((readEscape s).1 :: r.1, r.2)
    else if c == '\x00' then
      let r := readName s
      (replacementChar :: r.1, r.2)
    else if isNameChar c then
      let r := readName s
      (c :: r.1, r.2)
    else ([], c :: s)
termination_by s => s.length
decreasing_by
  · have := (readEscape_suffix s).length_le
    simp only [List.length_cons]; omega
  · simp
  · simp

theorem readName_suffix (s : List Char) : (readName s).2 <:+ s := by
  fun_induction readName s with
  | case1 | case2 | case6 => exact suffix_refl _
  | case3 c s _ _ r ih => exact ih.trans ((readEscape_suffix s).trans (suffix_cons ..))
  | case4 c s _ _ r ih | case5 c s _ _ _ r ih => exact ih.trans (suffix_cons ..)

theorem readName_suffix_tail {c : Char} {s : List Char} (h : startsIdent (c :: s)) :
    (readName (c :: s)).2 <:+ s := by
  rw [readName]
  split
  · split
    · rename_i hc hn
      simp only [beq_iff_eq] at hc
      subst hc
      simp [startsIdent, hn] at h
    · exact (readName_suffix _).trans (readEscape_suffix s)
  · split
    · exact readName_suffix s
    · split
      · exact readName_suffix s
      · rename_i hc hz hn
        exfalso
        unfold startsIdent at h
        split at h <;> simp_all [isNameStart, isNameChar, Char.isAlphanum]
        omega

/-! ## Strings, comments -/

/-- The rest of a string that the given quote closes: whether a line end breaks it off, what it
holds, and what follows. -/
def readString (quote : Char) : List Char → Bool × List Char × List Char
  | [] => (false, [], [])
  | c :: s =>
    if c == quote then (false, [], s)
    else if isNewline c then (true, [], c :: s)
    else if c == '\\' then
      if s.isEmpty then (false, [], [])
      else if startsWithNewline s then readString quote (dropSpace s)
      else
        let r := readString quote (readEscape s).2
        (r.1, (readEscape s).1 :: r.2.1, r.2.2)
    else
      let r := readString quote s
      (r.1, (if c == '\x00' then replacementChar else c) :: r.2.1, r.2.2)
termination_by s => s.length
decreasing_by
  · have := (dropSpace_suffix s).length_le
    simp only [List.length_cons]; omega
  · have := (readEscape_suffix s).length_le
    simp only [List.length_cons]; omega
  · simp

theorem readString_suffix (quote : Char) (s : List Char) : (readString quote s).2.2 <:+ s := by
  fun_induction readString quote s with
  | case1 | case3 => exact suffix_refl _
  | case2 => exact suffix_cons ..
  | case4 => exact nil_suffix
  | case5 c s _ _ _ _ _ ih => exact ih.trans ((dropSpace_suffix s).trans (suffix_cons ..))
  | case6 c s _ _ _ _ _ r ih => exact ih.trans ((readEscape_suffix s).trans (suffix_cons ..))
  | case7 c s _ _ _ r ih => exact ih.trans (suffix_cons ..)

def readComment : List Char → List Char × List Char
  | '*' :: '/' :: s => ([], s)
  | c :: s => let r := readComment s; (c :: r.1, r.2)
  | [] => ([], [])

theorem readComment_suffix (s : List Char) : (readComment s).2 <:+ s := by
  fun_induction readComment s with
  | case1 => exact (suffix_cons ..).trans (suffix_cons ..)
  | case2 c s _ r ih => exact ih.trans (suffix_cons ..)
  | case3 => exact suffix_refl _

/-! ## Addresses -/

def isUrlForbidden (c : Char) : Bool :=
  c == '"' || c == '\'' || c == '(' || (isControl c && c != '\x00')

/-- The rest of an address without quotes, from its first character on.  No address is given if a
character stands in it that it cannot hold; what is left then starts behind that character. -/
def readUrlBody : List Char → Option (List Char) × List Char
  | [] => (some [], [])
  | c :: s =>
    if c == ')' then (some [], s)
    else if isSpace c then
      match s.dropWhile isSpace with
      | [] => (some [], [])
      | d :: t => if d == ')' then (some [], t) else (none, t)
    else if isUrlForbidden c then (none, s)
    else if c == '\\' then
      if startsWithNewline s then (none, s)
      else
        let r := readUrlBody (readEscape s).2
        (r.1.map ((readEscape s).1 :: ·), r.2)
    else
      let r := readUrlBody s
      (r.1.map ((if c == '\x00' then replacementChar else c) :: ·), r.2)
termination_by s => s.length
decreasing_by
  · have := (readEscape_suffix s).length_le
    simp only [List.length_cons]; omega
  · simp

theorem readUrlBody_suffix (s : List Char) : (readUrlBody s).2 <:+ s := by
  fun_induction readUrlBody s with
  | case1 => exact suffix_refl _
  | case2 | case6 | case7 => exact suffix_cons ..
  | case3 => exact nil_suffix
  | case4 c s _ _ d t h _ | case5 c s _ _ d t h _ =>
    exact ((suffix_cons d t).trans (h ▸ dropWhile_suffix isSpace)).trans
      (suffix_cons ..)
  | case8 c s _ _ _ _ _ r ih => exact ih.trans ((readEscape_suffix s).trans (suffix_cons ..))
  | case9 c s _ _ _ _ r ih => exact ih.trans (suffix_cons ..)

/-- What is left from the bracket on that ends an address which cannot be read. -/
def skipBadUrl : List Char → List Char
  | [] => []
  | ')' :: s => ')' :: s
  | '\\' :: c :: s => if c == ')' || c == '\\' then skipBadUrl s else skipBadUrl (c :: s)
  | _ :: s => skipBadUrl s

theorem skipBadUrl_suffix (s : List Char) : skipBadUrl s <:+ s := by
  fun_induction skipBadUrl s with
  | case1 | case2 => exact suffix_refl _
  | case3 c s _ ih => exact ih.trans ((suffix_cons ..).trans (suffix_cons ..))
  | case4 c s _ ih | case5 c s _ _ ih => exact ih.trans (suffix_cons ..)

/-- What was read of `s` when `rest` is left. -/
def consumed (s rest : List Char) : List Char :=
  s.take (s.length - rest.length)

theorem consumed_append {s rest : List Char} (h : rest <:+ s) : consumed s rest ++ rest = s := by
  obtain ⟨t, rfl⟩ := h
  simp [consumed]

def readUrl (s : List Char) : Option (Token × List Char) :=
  let body := s.dropWhile isSpace
  match body with
  | '"' :: _ | '\'' :: _ => none
  | _ =>
    match readUrlBody body with
    | (some value, rest) => some (.url (String.ofList value), rest)
    | (none, rest) =>
      let rest := skipBadUrl rest
      some (.badUrl (String.ofList (consumed body rest)), rest.tail)

theorem readUrl_suffix {s rest : List Char} {t : Token} (h : readUrl s = some (t, rest)) :
    rest <:+ s := by
  have hb := readUrlBody_suffix (s.dropWhile isSpace)
  have hs := dropWhile_suffix (l := s) isSpace
  unfold readUrl at h
  dsimp only at h
  split at h
  · simp at h
  · simp at h
  · split at h
    · rename_i value r heq
      rw [heq] at hb
      obtain ⟨rfl, rfl⟩ : _ ∧ _ := by simpa using h
      exact hb.trans hs
    · rename_i r heq
      rw [heq] at hb
      obtain ⟨rfl, rfl⟩ : _ ∧ _ := by simpa using h
      exact (tail_suffix _).trans ((skipBadUrl_suffix _).trans (hb.trans hs))

/-- An identifier, a function, or an address without quotes. -/
def readIdentLike (s : List Char) : Token × List Char :=
  let (name, rest) := readName s
  match rest with
  | '(' :: rest =>
    if name.map Char.toLower == "url".toList then
      (readUrl rest).getD (.function (String.ofList name), rest)
    else (.function (String.ofList name), rest)
  | rest => (.ident (String.ofList name), rest)

theorem readIdentLike_suffix (s : List Char) : (readIdentLike s).2 <:+ (readName s).2 := by
  unfold readIdentLike
  split
  rename_i name rest heq
  simp only [heq]
  split
  · rename_i r
    split
    · cases h : readUrl r with
      | none => exact suffix_cons ..
      | some p => exact (readUrl_suffix h).trans (suffix_cons ..)
    · exact suffix_cons ..
  · exact suffix_refl _

/-! ## Numbers -/

def startsUnsigned : List Char → Bool
  | '.' :: c :: _ => c.isDigit
  | c :: _ => c.isDigit
  | [] => false

def startsNumber : List Char → Bool
  | '+' :: s | '-' :: s => startsUnsigned s
  | s => startsUnsigned s

def readSign : List Char → Option Sign × List Char
  | '+' :: s => (some .plus, s)
  | '-' :: s => (some .minus, s)
  | s => (none, s)

theorem readSign_suffix (s : List Char) : (readSign s).2 <:+ s := by
  fun_cases readSign s
  · exact suffix_cons ..
  · exact suffix_cons ..
  · exact suffix_refl _

def readFraction : List Char → Option (List Char) × List Char
  | '.' :: c :: s =>
    if c.isDigit then (some ((c :: s).takeWhile Char.isDigit), (c :: s).dropWhile Char.isDigit)
    else (none, '.' :: c :: s)
  | s => (none, s)

theorem readFraction_suffix (s : List Char) : (readFraction s).2 <:+ s := by
  fun_cases readFraction s
  · exact (dropWhile_suffix _).trans (suffix_cons ..)
  · exact suffix_refl _
  · exact suffix_refl _

def readExponent (s : List Char) : Option (Option Sign × List Char) × List Char :=
  match s with
  | c :: t =>
    let (sign, u) := readSign t
    if (c == 'e' || c == 'E') && (u.head?.any Char.isDigit) then
      (some (sign, u.takeWhile Char.isDigit), u.dropWhile Char.isDigit)
    else (none, s)
  | [] => (none, [])

theorem readExponent_suffix (s : List Char) : (readExponent s).2 <:+ s := by
  unfold readExponent
  split
  · rename_i c t
    have h := readSign_suffix t
    split
    rename_i sign u heq
    rw [heq] at h
    split
    · exact (dropWhile_suffix _).trans (h.trans (suffix_cons ..))
    · exact suffix_refl _
  · exact suffix_refl _

def readNumeral (s : List Char) : Numeral × List Char :=
  let sign := readSign s
  let whole := sign.2.takeWhile Char.isDigit
  let fraction := readFraction (sign.2.dropWhile Char.isDigit)
  let exponent := readExponent fraction.2
  (⟨sign.1, whole, fraction.1, exponent.1⟩, exponent.2)

theorem readNumeral_suffix (s : List Char) : (readNumeral s).2 <:+ s :=
  (readExponent_suffix _).trans <| (readFraction_suffix _).trans <|
    (dropWhile_suffix _).trans <| readSign_suffix s

theorem readFraction_dropWhile_lt {s : List Char} (h : startsUnsigned s) :
    (readFraction (s.dropWhile Char.isDigit)).2.length < s.length := by
  unfold startsUnsigned at h
  split at h
  · rename_i c s
    have h₁ : ('.' :: c :: s).dropWhile Char.isDigit = '.' :: c :: s := by
      rw [dropWhile_cons]; rfl
    rw [h₁]
    simp only [readFraction, h, if_true, length_cons]
    have := (dropWhile_suffix (l := c :: s) Char.isDigit).length_le
    simp only [length_cons] at this
    omega
  · rename_i c s _
    have h₁ := (readFraction_suffix ((c :: s).dropWhile Char.isDigit)).length_le
    have h₂ := (dropWhile_suffix (l := s) Char.isDigit).length_le
    rw [dropWhile_cons, if_pos h] at h₁
    rw [dropWhile_cons, if_pos h]
    simp only [length_cons]
    omega
  · simp at h

theorem readNumeral_suffix_tail {c : Char} {s : List Char} (h : startsNumber (c :: s)) :
    (readNumeral (c :: s)).2 <:+ s := by
  have hlt : (readNumeral (c :: s)).2.length < (c :: s).length := by
    have h₁ := (readExponent_suffix
      (readFraction ((readSign (c :: s)).2.dropWhile Char.isDigit)).2).length_le
    have h₂ := (readSign_suffix (c :: s)).length_le
    have h₃ : startsUnsigned (readSign (c :: s)).2 := by
      unfold startsNumber at h
      split at h
      · simp_all [readSign]
      · simp_all [readSign]
      · rename_i hp hm
        rw [show readSign (c :: s) = (none, c :: s) by
          unfold readSign; split <;> simp_all]
        exact h
    have h₄ := readFraction_dropWhile_lt h₃
    simp only [readNumeral]
    omega
  rcases suffix_cons_iff.1 (readNumeral_suffix (c :: s)) with h | h
  · rw [h] at hlt; exact absurd hlt (Nat.lt_irrefl _)
  · exact h

def readNumeric (s : List Char) : Token × List Char :=
  let (n, rest) := readNumeral s
  match rest with
  | '%' :: rest => (.percentage n, rest)
  | rest =>
    if startsIdent rest then
      let (unit, rest) := readName rest
      (.dimension n (String.ofList unit), rest)
    else (.number n, rest)

theorem readNumeric_suffix (s : List Char) : (readNumeric s).2 <:+ (readNumeral s).2 := by
  unfold readNumeric
  split
  rename_i n rest heq
  simp only [heq]
  split
  · exact suffix_cons ..
  · split
    · exact readName_suffix _
    · exact suffix_refl _

/-! ## Tokens -/

/-- The token `t` if `next` follows, and the character `c` alone otherwise. -/
def readPair (c next : Char) (t : Token) : List Char → Token × List Char
  | d :: s => if d == next then (t, s) else (.delim c, d :: s)
  | [] => (.delim c, [])

theorem readPair_suffix (c next : Char) (t : Token) (s : List Char) :
    (readPair c next t s).2 <:+ s := by
  fun_cases readPair c next t s
  · exact suffix_cons ..
  · exact suffix_refl _
  · exact suffix_refl _

def readQuoted (quote : Char) (s : List Char) : Token × List Char :=
  let (broken, value, rest) := readString quote s
  (if broken then .badString (String.ofList value) else .string (String.ofList value), rest)

def readHash (s : List Char) : Token × List Char :=
  let (name, rest) := readName s
  if startsIdent s then (.idHash (String.ofList name), rest)
  else if s.head?.any (fun c => c.isDigit || c == '-') then (.hash (String.ofList name), rest)
  else (.delim '#', s)

theorem readHash_suffix (s : List Char) : (readHash s).2 <:+ s := by
  unfold readHash
  have h := readName_suffix s
  split
  rename_i name rest heq
  rw [heq] at h
  split
  · exact h
  · split
    · exact h
    · exact suffix_refl _

def readAt (s : List Char) : Token × List Char :=
  if startsIdent s then (.atKeyword (String.ofList (readName s).1), (readName s).2)
  else (.delim '@', s)

theorem readAt_suffix (s : List Char) : (readAt s).2 <:+ s := by
  unfold readAt
  split
  · exact readName_suffix s
  · exact suffix_refl _

def readSlash : List Char → Token × List Char
  | '*' :: s => (.comment (String.ofList (readComment s).1), (readComment s).2)
  | s => (.delim '/', s)

theorem readSlash_suffix (s : List Char) : (readSlash s).2 <:+ s := by
  fun_cases readSlash s
  · exact (readComment_suffix _).trans (suffix_cons ..)
  · exact suffix_refl _

def readAngle : List Char → Token × List Char
  | '!' :: '-' :: '-' :: s => (.commentOpen, s)
  | s => (.delim '<', s)

theorem readAngle_suffix (s : List Char) : (readAngle s).2 <:+ s := by
  fun_cases readAngle s
  · exact ⟨['!', '-', '-'], rfl⟩
  · exact suffix_refl _

/-- A token that no number and no identifier starts. -/
def readMark (c : Char) (s : List Char) : Token × List Char :=
  if isSpace c then
    (.space (String.ofList (c :: s.takeWhile isSpace)), s.dropWhile isSpace)
  else match c with
    | '"' => readQuoted '"' s
    | '\'' => readQuoted '\'' s
    | '#' => readHash s
    | '@' => readAt s
    | '/' => readSlash s
    | '<' => readAngle s
    | '$' => readPair '$' '=' .suffixMatch s
    | '*' => readPair '*' '=' .substringMatch s
    | '^' => readPair '^' '=' .prefixMatch s
    | '|' => readPair '|' '=' .dashMatch s
    | '~' => readPair '~' '=' .includeMatch s
    | '(' => (.opener .round, s)
    | ')' => (.closer .round, s)
    | '[' => (.opener .square, s)
    | ']' => (.closer .square, s)
    | '\x7b' => (.opener .curly, s)
    | '\x7d' => (.closer .curly, s)
    | ',' => (.comma, s)
    | ':' => (.colon, s)
    | ';' => (.semicolon, s)
    | c => (.delim c, s)

theorem readMark_suffix (c : Char) (s : List Char) : (readMark c s).2 <:+ s := by
  unfold readMark
  split
  · exact dropWhile_suffix _
  · split
    case h_1 | h_2 => exact readString_suffix ..
    case h_3 => exact readHash_suffix s
    case h_4 => exact readAt_suffix s
    case h_5 => exact readSlash_suffix s
    case h_6 => exact readAngle_suffix s
    case h_7 | h_8 | h_9 | h_10 | h_11 => exact readPair_suffix ..
    all_goals exact suffix_refl _

namespace Token

/-- The first token of the text `c :: s`, and what is left. -/
def read (c : Char) (s : List Char) : Token × List Char :=
  if startsNumber (c :: s) then readNumeric (c :: s)
  else if c == '-' && s.take 2 == ['-', '>'] then (.commentClose, s.drop 2)
  else if startsIdent (c :: s) then readIdentLike (c :: s)
  else readMark c s

theorem read_suffix (c : Char) (s : List Char) : (read c s).2 <:+ s := by
  unfold read
  split
  · exact (readNumeric_suffix _).trans (readNumeral_suffix_tail ‹_›)
  · split
    · exact drop_suffix ..
    · split
      · exact (readIdentLike_suffix _).trans (readName_suffix_tail ‹_›)
      · exact readMark_suffix c s

end Token

/-! ## Lexemes -/

/-- A token with the characters it was read from and the location of the first of them. -/
structure Lexeme where
  token : Token
  text : List Char
  location : Location
deriving DecidableEq, Repr

namespace Lexeme

/-- The tokens of a text that starts at the given location. -/
def list (location : Location) (s : List Char) : List Lexeme :=
  match s with
  | [] => []
  | c :: s =>
    let rest := (Token.read c s).2
    let text := consumed (c :: s) rest
    ⟨(Token.read c s).1, text, location⟩ :: list (location.advance text) rest
termination_by s.length
decreasing_by
  have := (Token.read_suffix c s).length_le
  simp only [List.length_cons]; omega

theorem flatMap_text_list (location : Location) (s : List Char) :
    (list location s).flatMap text = s := by
  fun_induction list location s with
  | case1 => rfl
  | case2 location c s rest text ih =>
    rw [flatMap_cons, ih]
    exact consumed_append ((Token.read_suffix c s).trans (suffix_cons ..))

end Lexeme

end StyleBlocks
