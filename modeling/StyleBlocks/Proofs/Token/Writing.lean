import Mathlib.Tactic.IntervalCases
import StyleBlocks.Proofs.Token.Identifiers

/-!
# Names that are written can be read
-/

namespace StyleBlocks

open List

variable {c : Char} {name : String} {rest s : List Char}

/-! ## Escapes -/

theorem readEscape_hexEscape (h : isControl c = true ∨ c.isDigit = true) (hn : c ≠ '\x00')
    (rest : List Char) :
    startsWithNewline (Nat.toDigits 16 c.toNat ++ ' ' :: rest) = false ∧
      readEscape (Nat.toDigits 16 c.toNat ++ ' ' :: rest) = (c, rest) := by
  have hlt : c.toNat < 128 := by
    rcases h with h | h
    · simp only [isControl, Bool.or_eq_true, decide_eq_true_eq, beq_iff_eq] at h
      omega
    · simp only [Char.isDigit, Bool.and_eq_true, decide_eq_true_eq, UInt32.le_iff_toNat_le] at h
      exact Nat.lt_of_le_of_lt h.2 (by decide)
  have hcode : c = Char.ofNat c.toNat := (Char.ofNat_toNat c).symm
  have hpos : c.toNat ≠ 0 := by
    intro h0
    rw [h0] at hcode
    exact hn hcode
  rw [hcode]
  have hread : ∀ n < 128, n ≠ 0 →
      startsWithNewline (Nat.toDigits 16 (Char.ofNat n).toNat ++ ' ' :: rest) = false ∧
        readEscape (Nat.toDigits 16 (Char.ofNat n).toNat ++ ' ' :: rest)
          = (Char.ofNat n, rest) := by
    intro n hn hpos
    have : 1 ≤ n := Nat.one_le_iff_ne_zero.2 hpos
    interval_cases n <;> exact ⟨rfl, rfl⟩
  exact hread c.toNat hlt hpos

theorem readName_backslash (hs : startsWithNewline s = false) (he : readEscape s = (c, rest)) :
    readName ('\\' :: s) = (c :: (readName rest).1, (readName rest).2) := by
  rw [readName]
  simp [hs, he]

theorem readName_hexEscape (h : isControl c = true ∨ c.isDigit = true) (hn : c ≠ '\x00')
    (rest : List Char) :
    readName (hexEscape c ++ rest) = (c :: (readName rest).1, (readName rest).2) := by
  obtain ⟨hnewline, hescape⟩ := readEscape_hexEscape h hn rest
  have heq : hexEscape c ++ rest = '\\' :: (Nat.toDigits 16 c.toNat ++ ' ' :: rest) := by
    simp [hexEscape]
  rw [heq]
  exact readName_backslash hnewline hescape

theorem isNameChar_of_isHexDigit (h : isHexDigit c = true) : isNameChar c = true := by
  simp only [isHexDigit, Bool.or_eq_true, Bool.and_eq_true, decide_eq_true_eq, Char.le_def,
    UInt32.le_iff_toNat_le] at h
  unfold isNameChar Char.isAlphanum Char.isAlpha Char.isLower Char.isUpper
  simp only [Bool.or_eq_true, Bool.and_eq_true, decide_eq_true_eq, UInt32.le_iff_toNat_le]
  rcases h with (h | h) | h
  · exact .inl (.inl (.inl (.inr h)))
  · exact .inl (.inl (.inl (.inl (.inr ⟨h.1, h.2.trans (by decide)⟩))))
  · exact .inl (.inl (.inl (.inl (.inl ⟨h.1, h.2.trans (by decide)⟩))))

theorem escape_of_not_isNameChar (h : isNameChar c = false) (hc : isControl c = false)
    (hn : c ≠ '\x00') (rest : List Char) :
    startsWithNewline (c :: rest) = false ∧ readEscape (c :: rest) = (c, rest) := by
  have hhex : isHexDigit c = false := by
    cases hx : isHexDigit c with
    | false => rfl
    | true =>
      rw [isNameChar_of_isHexDigit hx] at h
      cases h
  refine ⟨?_, ?_⟩
  · rw [startsWithNewline]
    cases hx : isNewline c with
    | false => rfl
    | true =>
      exfalso
      unfold isNewline at hx
      simp only [Bool.or_eq_true, beq_iff_eq] at hx
      rcases hx with (rfl | rfl) | rfl <;> exact absurd hc (by decide)
  · simp [readEscape, hhex, hn]

theorem readName_writeNameChar (hn : c ≠ '\x00') (rest : List Char) :
    readName (writeNameChar c ++ rest) = (c :: (readName rest).1, (readName rest).2) := by
  unfold writeNameChar
  split
  · exact readName_cons ‹_›
  rename_i hname
  split
  · rename_i hz
    exact absurd (eq_of_beq hz) hn
  split
  · exact readName_hexEscape (.inl ‹_›) hn rest
  rename_i hc
  obtain ⟨hnewline, hescape⟩ :=
    escape_of_not_isNameChar (by simpa using hname) (by simpa using hc) hn rest
  exact readName_backslash hnewline hescape

/-- **A name without the null character is read as it was written.** -/
theorem readName_writeName (hs : '\x00' ∉ s) (rest : List Char) :
    readName (writeName s ++ rest) = (s ++ (readName rest).1, (readName rest).2) := by
  induction s with
  | nil => rfl
  | cons c s ih =>
    rw [mem_cons, not_or] at hs
    have heq : writeName (c :: s) ++ rest = writeNameChar c ++ (writeName s ++ rest) := by
      simp [writeName]
    rw [heq, readName_writeNameChar (Ne.symm hs.1), ih hs.2]
    rfl

/-! ## Texts that write a name -/

/-- A mark that may follow a name. -/
structure Follows (rest : List Char) : Prop where
  name : EndsName rest
  paren : rest.head? ≠ some '('
  angle : rest.head? ≠ some '>'

theorem follows_nil : Follows [] :=
  ⟨endsName_nil, by simp, by simp⟩

/-- The text is read as the given name, whatever mark follows; it may itself follow a mark. -/
structure Writes (w : List Char) (name : String) : Prop where
  read : ∀ rest, Follows rest → ∃ c s, w = c :: s ∧ Token.read c (s ++ rest) = (.ident name, rest)
  head : ∀ c, w.head? = some c → c.isDigit = false ∧ c ≠ '='

theorem ident_of_readName (hr : Follows rest) (hstart : startsIdent (c :: s) = true)
    (hclose : c = '-' → s.take 2 ≠ ['-', '>']) (hname : readName (c :: s) = (name.toList, rest)) :
    Token.read c s = (.ident name, rest) := by
  rw [read_of_startsIdent hstart hclose, readIdentLike, hname]
  dsimp only
  split
  · have := hr.paren
    simp at this
  · rw [String.ofList_toList]

theorem head_of_writes (h : c = '-' ∨ c = '\\' ∨ isNameStart c = true) :
    c.isDigit = false ∧ c ≠ '=' := by
  rcases h with rfl | rfl | h
  · decide
  · decide
  · refine ⟨not_isDigit_of_isNameStart h, ?_⟩
    rintro rfl
    exact absurd h (by decide)

theorem writes_identifier (h : isIdentifier name = true) : Writes name.toList name := by
  obtain ⟨hstart, hall⟩ := isIdentifier_iff.1 h
  cases hname : name.toList with
  | nil => exact absurd hname (toList_ne_nil_of_isIdentifier h)
  | cons c s =>
    rw [hname] at hstart hall
    refine ⟨fun rest hr => ⟨c, s, rfl, ?_⟩, fun d hd => ?_⟩
    · rw [read_append_of_startsIdent hstart hall hr.angle,
        readIdentLike_of_endsName hall hr.name hr.paren, ← hname, String.ofList_toList]
    · cases hd
      exact head_of_writes (head_of_startsIdent hstart)

theorem writeNameStart_cons (hn : c ≠ '\x00') (hc : c ≠ '-') (s rest : List Char) :
    ∃ d t, writeNameStart (c :: s) = d :: t ∧ (d = '\\' ∧ startsWithNewline (t ++ rest) = false ∨
      isNameStart d = true) := by
  have hhex : ∀ (h : isControl c = true ∨ c.isDigit = true) (u : List Char),
      ∃ d t, hexEscape c ++ u = d :: t ∧ (d = '\\' ∧ startsWithNewline (t ++ rest) = false ∨
        isNameStart d = true) := by
    intro h u
    refine ⟨'\\', Nat.toDigits 16 c.toNat ++ ' ' :: u, by simp [hexEscape], .inl ⟨rfl, ?_⟩⟩
    have := (readEscape_hexEscape h hn (u ++ rest)).1
    simpa using this
  rw [writeNameStart]
  split
  · exact hhex (.inr ‹_›) _
  rename_i hdigit
  have heq : writeName (c :: s) = writeNameChar c ++ writeName s := by simp [writeName]
  rw [heq]
  unfold writeNameChar
  split
  · rename_i hname
    refine ⟨c, writeName s, rfl, .inr ?_⟩
    simp only [isNameChar, isNameStart, Char.isAlphanum, Bool.or_eq_true, beq_iff_eq, hdigit,
      hc, Bool.false_eq_true, or_false, decide_eq_true_eq] at hname ⊢
    tauto
  rename_i hname
  split
  · rename_i hz
    exact absurd (eq_of_beq hz) hn
  split
  · exact hhex (.inl ‹_›) _
  · rename_i hcontrol
    refine ⟨'\\', c :: writeName s, rfl, .inl ⟨rfl, ?_⟩⟩
    exact (escape_of_not_isNameChar (by simpa using hname) (by simpa using hcontrol) hn _).1

theorem readName_writeNameStart (hs : '\x00' ∉ s) (hr : EndsName rest) :
    readName (writeNameStart s ++ rest) = (s, rest) := by
  cases s with
  | nil => exact readName_of_endsName hr
  | cons c s =>
    rw [mem_cons, not_or] at hs
    have hwrite := readName_writeName hs.2 rest
    rw [readName_of_endsName hr, append_nil] at hwrite
    rw [writeNameStart]
    split
    · rw [append_assoc, readName_hexEscape (.inr ‹_›) (Ne.symm hs.1), hwrite]
    · have := readName_writeName (s := c :: s) (by simpa using hs) rest
      rwa [readName_of_endsName hr, append_nil] at this

theorem head?_writeName_ne (hr : rest.head? ≠ some '>') :
    (writeName s ++ rest).head? ≠ some '>' := by
  cases s with
  | nil => exact hr
  | cons c s =>
    have heq : writeName (c :: s) = writeNameChar c ++ writeName s := by simp [writeName]
    rw [heq]
    unfold writeNameChar
    split
    · rintro h
      cases h
      rename_i hname
      exact absurd hname (by decide)
    · split
      · exact fun h => absurd (Option.some.inj h) (by decide)
      · split <;> simp [hexEscape]

theorem writes_writeIdentifier (hn : '\x00' ∉ name.toList) (hne : name.toList ≠ []) :
    Writes (writeIdentifier name.toList) name := by
  obtain ⟨s, hs⟩ : ∃ s, s = name.toList := ⟨_, rfl⟩
  rw [← hs] at hn hne ⊢
  unfold writeIdentifier
  split
  · rename_i s
    simp only [mem_cons, not_or] at hn
    refine ⟨fun rest hr => ⟨'-', '-' :: writeName s, rfl, ?_⟩, fun d hd => ?_⟩
    · refine ident_of_readName hr rfl (fun _ htake => ?_) ?_
      · have := head?_writeName_ne (s := s) hr.angle
        rw [cons_append, take_succ_cons, cons.injEq] at htake
        rw [take_one] at htake
        cases hhead : (writeName s ++ rest).head? <;> simp_all
      · rw [readName_cons (by decide), cons_append, readName_cons (by decide),
          readName_writeName hn.2.2, readName_of_endsName hr.name, ← hs, append_nil]
    · cases hd
      decide
  · refine ⟨fun rest hr => ⟨'\\', ['-'], rfl, ?_⟩, fun d hd => ?_⟩
    · refine ident_of_readName hr rfl (by simp) ?_
      have hescape : readEscape ('-' :: rest) = ('-', rest) := rfl
      rw [singleton_append, readName_backslash rfl hescape, readName_of_endsName hr.name, ← hs]
    · cases hd
      decide
  · rename_i s hhyphen hlone
    simp only [mem_cons, not_or] at hn
    obtain ⟨c, s, rfl⟩ : ∃ c s', s = c :: s' := exists_cons_of_ne_nil fun h => hlone (h ▸ rfl)
    have hc : c ≠ '-' := fun h => hhyphen s (h ▸ rfl)
    refine ⟨fun rest hr => ⟨'-', writeNameStart (c :: s), rfl, ?_⟩, fun d hd => ?_⟩
    · obtain ⟨d, t, heq, hd⟩ := writeNameStart_cons (fun h => hn.2 (by simp [h])) hc s rest
      refine ident_of_readName hr ?_ (fun _ htake => ?_) ?_
      · rw [heq]
        rcases hd with ⟨rfl, -⟩ | hd
        · simp [startsIdent]
        · simp [startsIdent, hd]
      · rw [heq, cons_append, take_succ_cons, cons.injEq] at htake
        rw [htake.1] at hd
        rcases hd with ⟨hd, -⟩ | hd <;> exact absurd hd (by decide)
      · rw [readName_cons (by decide), readName_writeNameStart hn.2 hr.name, ← hs]
    · cases hd
      decide
  · rename_i hhyphen hlone hfirst
    obtain ⟨c, s, rfl⟩ := exists_cons_of_ne_nil hne
    have hc : c ≠ '-' := fun h => hfirst s (h ▸ rfl)
    have hc₀ : c ≠ '\x00' := fun h => hn (by simp [h])
    refine ⟨fun rest hr => ?_, fun d hd => ?_⟩
    · obtain ⟨d, t, heq, hd⟩ := writeNameStart_cons hc₀ hc s rest
      refine ⟨d, t, heq, ident_of_readName hr ?_ (fun hdash => ?_) ?_⟩
      · rcases hd with ⟨rfl, hd⟩ | hd
        · simp [startsIdent, hd]
        · exact startsIdent_of_isNameStart hd _
      · rw [hdash] at hd
        rcases hd with ⟨hd, -⟩ | hd <;> exact absurd hd (by decide)
      · rw [← cons_append, ← heq, readName_writeNameStart hn hr.name, ← hs]
    · obtain ⟨e, t, heq, he⟩ := writeNameStart_cons hc₀ hc s []
      rw [heq] at hd
      cases hd
      exact head_of_writes (.inr (he.imp_left And.left))

theorem writeIdentifier_of_isIdentifier (h : isIdentifier name = true) :
    writeIdentifier name.toList = name.toList := by
  have hwrite : ∀ s : List Char, (∀ c ∈ s, isNameChar c = true) → writeName s = s := by
    intro s hs
    induction s with
    | nil => rfl
    | cons c s ih =>
      have heq : writeName (c :: s) = writeNameChar c ++ writeName s := by simp [writeName]
      rw [heq, ih fun d hd => hs d (mem_cons_of_mem c hd), writeNameChar,
        if_pos (hs c mem_cons_self)]
      rfl
  have hwriteStart : ∀ s : List Char, (∀ c ∈ s, isNameChar c = true) →
      (∀ c, s.head? = some c → c.isDigit = false) → writeNameStart s = s := by
    intro s hs hdigit
    cases s with
    | nil => rfl
    | cons c s => rw [writeNameStart, hdigit c rfl, if_neg Bool.false_ne_true, hwrite _ hs]
  obtain ⟨hstart, hall⟩ := isIdentifier_iff.1 h
  generalize name.toList = s at hstart hall
  unfold writeIdentifier
  split
  · simp only [mem_cons, forall_eq_or_imp] at hall
    rw [hwrite _ hall.2.2]
  · cases hstart
  · rename_i s _ _
    rw [hwriteStart s fun c hc => hall c (mem_cons_of_mem _ hc)]
    intro c hc
    obtain ⟨s, rfl⟩ : ∃ s', s = c :: s' := by cases s <;> cases hc; exact ⟨_, rfl⟩
    have hc : (isNameStart c = true ∨ c = '-') ∨ c = '\\' := by simpa [startsIdent] using hstart
    exact (head_of_writes (by tauto)).1
  · refine hwriteStart s hall fun c hc => ?_
    obtain ⟨s, rfl⟩ : ∃ s', s = c :: s' := by cases s <;> cases hc; exact ⟨_, rfl⟩
    exact (head_of_writes (head_of_startsIdent hstart)).1

/-! ## Marks -/

def markToken (c : Char) : Token :=
  if c = '[' then .opener .square else .delim c

theorem follows_mark (h : c ∈ ['.', '[', '|', '=', ']', ':']) (s : List Char) :
    Follows (c :: s) := by
  have hc : isNameChar c = false ∧ c ≠ '\\' ∧ c ≠ '\x00' ∧ c ≠ '(' ∧ c ≠ '>' := by
    simp only [mem_cons, not_mem_nil, or_false] at h
    rcases h with rfl | rfl | rfl | rfl | rfl | rfl <;> decide
  obtain ⟨hname, hb, hn, hparen, hangle⟩ := hc
  exact ⟨endsName_cons hname hb hn, by simpa using hparen, by simpa using hangle⟩

theorem read_mark {d : Char} (h : c ∈ ['.', '[', '|', '=']) (hd : d.isDigit = false ∧ d ≠ '=')
    (s : List Char) : Token.read c (d :: s) = (markToken c, d :: s) := by
  simp only [mem_cons, not_mem_nil, or_false] at h
  rcases h with rfl | rfl | rfl | rfl
  · have hnumber : startsNumber ('.' :: d :: s) = false := hd.1
    rw [Token.read, hnumber]
    rfl
  · rfl
  · have hpair : Token.read '|' (d :: s) = readPair '|' '=' .dashMatch (d :: s) := rfl
    rw [hpair, readPair]
    simp [hd.2, markToken]
  · rfl

namespace Lexeme

theorem list_cons {location : Location} {w : List Char} {t : Token} (h : Token.read c s = (t, rest))
    (hw : w ++ rest = c :: s) :
    list location (c :: s) = ⟨t, w, location⟩ :: list (location.advance w) rest := by
  have htext : consumed (c :: s) rest = w := by
    rw [consumed, ← hw]
    simp
  rw [list, h]
  simp only [htext]

end Lexeme

end StyleBlocks
