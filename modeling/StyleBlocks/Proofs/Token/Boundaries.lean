import StyleBlocks.Proofs.Steps
import StyleBlocks.Proofs.Token.Writing

/-!
# Where the parts of tokens end

What follows a token matters only up to where the token ends.  A text with which no token goes on
(`EndsToken`) may be exchanged for another one: names, strings, comments and addresses that end
before the one end before the other, with the same value.  One space is the exception, since an
escape takes it along (`Leaves`).

* `readName_exchange`, `readString_exchange`, `readComment_exchange`, `readUrl_exchange`: **the parts
  of tokens end before whatever ends tokens.**
-/

namespace StyleBlocks

open List

variable {a c quote : Char} {b : Bool} {m rest s u v w r r' : List Char} {t : Token}

/-- A character with which no token goes on. -/
structure Stop (a : Char) : Prop where
  name : isNameChar a = false
  backslash : a ≠ '\\'
  nul : a ≠ '\x00'
  mark : a ∉ ['.', '+', '(', '>', '=', '*', '%']

/-- A text with which no token goes on. -/
structure EndsToken (r : List Char) : Prop where
  ne_nil : r ≠ []
  head : ∀ a, r.head? = some a → Stop a
  comment : r.take 2 ≠ ['!', '-']

/-- A text with which no token goes on, and which has at most one space at its start. -/
structure EndsPiece (r : List Char) : Prop extends EndsToken r where
  space : ∀ a w, r = a :: w → isSpace a = true →
    a = ' ' ∧ EndsToken w ∧ ∀ b, w.head? = some b → isSpace b = false

/-- What is left of `m ++ r`: all of it, or all but a space that belongs to an escape before it. -/
def Leaves (m r rest : List Char) : Prop :=
  rest = m ++ r ∨ m = [] ∧ r = ' ' :: rest

theorem isHexDigit_of_not_isNameChar (h : isNameChar c = false) : isHexDigit c = false := by
  cases hx : isHexDigit c with
  | false => rfl
  | true =>
    rw [isNameChar_of_isHexDigit hx] at h
    cases h

theorem isDigit_of_not_isNameChar (h : isNameChar c = false) : c.isDigit = false := by
  cases hx : c.isDigit with
  | false => rfl
  | true =>
    unfold isNameChar Char.isAlphanum at h
    rw [hx] at h
    simp at h

namespace EndsToken

theorem exists_cons (h : EndsToken r) : ∃ a w, r = a :: w ∧ Stop a := by
  obtain ⟨a, w, rfl⟩ := exists_cons_of_ne_nil h.ne_nil
  exact ⟨a, w, rfl, h.head a rfl⟩

theorem endsName (h : EndsToken r) : EndsName r := by
  obtain ⟨a, w, rfl, ha⟩ := h.exists_cons
  exact endsName_cons ha.name ha.backslash ha.nul

end EndsToken

theorem EndsPiece.startsWithNewline (h : EndsPiece r) : startsWithNewline r = false := by
  obtain ⟨a, w, rfl, -⟩ := h.exists_cons
  rw [StyleBlocks.startsWithNewline]
  cases hn : isNewline a with
  | false => rfl
  | true =>
    have hspace : isSpace a = true := by
      rw [isSpace, hn, Bool.or_true]
    rw [(h.space a w rfl hspace).1] at hn
    exact absurd hn (by decide)

theorem stop_of_mem (h : a ∈ [';', '\x7b', '\x7d', '/', '!']) : Stop a := by
  simp only [mem_cons, not_mem_nil, or_false] at h
  rcases h with rfl | rfl | rfl | rfl | rfl <;>
    exact ⟨by decide, by decide, by decide, by decide⟩

theorem stop_of_isSpace (h : isSpace a = true) : Stop a := by
  simp only [isSpace, isNewline, Bool.or_eq_true, beq_iff_eq] at h
  rcases h with (rfl | rfl) | (rfl | rfl) | rfl <;>
    exact ⟨by decide, by decide, by decide, by decide⟩

theorem endsToken_cons (ha : Stop a) (hne : a ≠ '!') (w : List Char) : EndsToken (a :: w) := by
  refine ⟨by simp, fun b hb => ?_, fun h => hne ?_⟩
  · cases hb
    exact ha
  · cases w with
    | nil => cases h
    | cons b w => exact (List.cons.inj h).1

theorem endsPiece_cons (ha : Stop a) (hne : a ≠ '!') (hs : isSpace a = false) (w : List Char) :
    EndsPiece (a :: w) := by
  refine ⟨endsToken_cons ha hne w, fun b w' heq hb => ?_⟩
  rw [← (cons.inj heq).1, hs] at hb
  cases hb

theorem endsPiece_space (hw : EndsToken w) (hs : ∀ b, w.head? = some b → isSpace b = false) :
    EndsPiece (' ' :: w) := by
  refine ⟨endsToken_cons (stop_of_isSpace rfl) (by decide) w, fun b w' heq _ => ?_⟩
  obtain ⟨rfl, rfl⟩ := cons.inj heq
  exact ⟨rfl, hw, hs⟩

theorem stop_round : Stop ')' :=
  ⟨by decide, by decide, by decide, by decide⟩

theorem endsToken_semicolon (w : List Char) : EndsToken (';' :: w) :=
  endsToken_cons (stop_of_mem (by simp)) (by decide) w

theorem takeWhile_append_of_head {p : Char → Bool} (h : ∀ a, r.head? = some a → p a = false)
    (s : List Char) :
    (s ++ r).takeWhile p = s.takeWhile p ∧ (s ++ r).dropWhile p = s.dropWhile p ++ r := by
  induction s with
  | nil =>
    cases r with
    | nil => exact ⟨rfl, rfl⟩
    | cons a w => simp [h a rfl]
  | cons c s ih =>
    cases hc : p c with
    | false => simp [hc]
    | true => simp [hc, ih.1, ih.2]

/-! ## Escapes -/

theorem takeWhile_isHexDigit_append (hr : EndsName r) (s : List Char) :
    ((s ++ r).take 6).takeWhile isHexDigit = (s.take 6).takeWhile isHexDigit := by
  rw [take_append]
  refine (takeWhile_append_of_head (fun a ha => ?_) _).1
  apply isHexDigit_of_not_isNameChar
  apply (hr a _).1
  rw [head?_take] at ha
  split at ha
  · cases ha
  · exact ha

theorem dropSpace_of_not_isSpace (h : isSpace c = false) (s : List Char) :
    dropSpace (c :: s) = c :: s := by
  unfold dropSpace
  split
  · rename_i heq
    rw [(cons.inj heq).1] at h
    exact absurd h (by decide)
  · rename_i heq
    cases heq
    simp [h]
  · rename_i heq
    cases heq

theorem dropSpace_of_isSpace (h : isSpace c = true) (hs : c = '\r' → s.head? ≠ some '\n') :
    dropSpace (c :: s) = s := by
  unfold dropSpace
  split
  · rename_i heq
    obtain ⟨rfl, rfl⟩ := cons.inj heq
    exact absurd rfl (hs rfl)
  · rename_i heq
    cases heq
    simp [h]
  · rename_i heq
    cases heq

theorem length_dropSpace_lt (h : isSpace c = true) (s : List Char) :
    (dropSpace (c :: s)).length < (c :: s).length := by
  by_cases hs : c = '\r' ∧ s.head? = some '\n'
  · obtain ⟨rfl, hs⟩ := hs
    obtain ⟨s, rfl⟩ := head?_eq_some_iff.1 hs
    rw [dropSpace, length_cons, length_cons]
    omega
  · rw [dropSpace_of_isSpace h fun hc hn => hs ⟨hc, hn⟩]
    simp

/-- A space is taken from what follows `u` only where `u` is empty, or where a line end is divided. -/
theorem dropSpace_append (hu : u ≠ [] ∧ u ≠ ['\r']) (r : List Char) :
    dropSpace (u ++ r) = dropSpace u ++ r := by
  obtain ⟨c, v, rfl⟩ := exists_cons_of_ne_nil hu.1
  rw [cons_append]
  by_cases hline : c = '\r' ∧ v.head? = some '\n'
  · obtain ⟨rfl, hv⟩ := hline
    obtain ⟨v, rfl⟩ := head?_eq_some_iff.1 hv
    rfl
  cases hs : isSpace c with
  | false => rw [dropSpace_of_not_isSpace hs, dropSpace_of_not_isSpace hs, cons_append]
  | true =>
    rw [dropSpace_of_isSpace hs fun hc hn => hline ⟨hc, hn⟩, dropSpace_of_isSpace hs]
    intro hc hn
    have hv : v ≠ [] := by
      rintro rfl
      exact hu.2 (by rw [hc])
    obtain ⟨d, v, rfl⟩ := exists_cons_of_ne_nil hv
    exact hline ⟨hc, hn⟩

/-- **An escape that begins in `s`** ends there, or at its end, where it may take a space along. -/
theorem readEscape_append (hs : s ≠ []) : ∃ c u, u <:+ s ∧ u.length < s.length ∧
    ((∀ r, EndsName r → readEscape (s ++ r) = (c, u ++ r)) ∨
      (u = [] ∨ u = ['\r']) ∧ ∀ r, EndsName r → readEscape (s ++ r) = (c, dropSpace (u ++ r))) := by
  obtain ⟨a, s, rfl⟩ := exists_cons_of_ne_nil hs
  cases ha : isHexDigit a with
  | false =>
    refine ⟨if a == '\x00' then replacementChar else a, s, suffix_cons .., by simp,
      .inl fun r _ => ?_⟩
    rw [cons_append, readEscape, ha, if_neg Bool.false_ne_true]
    split <;> rfl
  | true =>
    obtain ⟨digits, hd⟩ : ∃ digits, digits = ((a :: s).take 6).takeWhile isHexDigit := ⟨_, rfl⟩
    obtain ⟨u, hu⟩ : digits <+: a :: s := by
      rw [hd]
      exact (List.takeWhile_prefix _).trans (List.take_prefix ..)
    have hpos : 0 < digits.length := by
      rw [hd]
      simp [ha]
    have hlen := congrArg length hu
    rw [length_append] at hlen
    obtain ⟨c, hread⟩ : ∃ c, ∀ r, EndsName r →
        readEscape (a :: s ++ r) = (c, dropSpace (u ++ r)) := by
      refine ⟨charOfCode (digits.foldl (fun v d => 16 * v + hexDigit d) 0), fun r hr => ?_⟩
      rw [cons_append, readEscape, ha, if_pos rfl, ← cons_append,
        takeWhile_isHexDigit_append hr, ← hd]
      dsimp only
      rw [← hu, append_assoc, drop_left]
    by_cases hshort : u = [] ∨ u = ['\r']
    · exact ⟨c, u, ⟨digits, hu⟩, by omega, .inr ⟨hshort, hread⟩⟩
    · have hle := (dropSpace_suffix u).length_le
      refine ⟨c, dropSpace u, (dropSpace_suffix u).trans ⟨digits, hu⟩, by omega, .inl fun r hr => ?_⟩
      rw [hread r hr, dropSpace_append (not_or.1 hshort)]

section

variable (hr : EndsToken r) (hr' : EndsPiece r')

include hr hr'

/-- The space that an escape takes along is not taken from `r`, but it may be taken from `r'`. -/
theorem dropSpace_exchange_of_short (hu : u = [] ∨ u = ['\r'])
    (h : r.length ≤ (dropSpace (u ++ r)).length) :
    dropSpace (u ++ r) = r ∧ Leaves [] r' (dropSpace (u ++ r')) := by
  obtain ⟨a, w, rfl, ha⟩ := hr.exists_cons
  obtain ⟨a', w', rfl, ha'⟩ := hr'.exists_cons
  rcases hu with rfl | rfl
  · have hspace : isSpace a = false := by
      cases hs : isSpace a with
      | false => rfl
      | true => exact absurd h (Nat.not_le.2 (length_dropSpace_lt hs w))
    refine ⟨dropSpace_of_not_isSpace hspace w, ?_⟩
    rw [nil_append]
    cases hs : isSpace a' with
    | false =>
      rw [dropSpace_of_not_isSpace hs w']
      exact .inl rfl
    | true =>
      obtain ⟨rfl, -, -⟩ := hr'.space a' w' rfl hs
      exact .inr ⟨rfl, rfl⟩
  · have hline : a ≠ '\n' := by
      rintro rfl
      have hlen : (dropSpace (['\r'] ++ '\n' :: w)).length = w.length := rfl
      rw [hlen, length_cons] at h
      omega
    have hline' : a' ≠ '\n' := by
      rintro rfl
      exact absurd hr'.startsWithNewline (by simp [startsWithNewline, isNewline])
    exact ⟨dropSpace_of_isSpace rfl (by simpa using hline),
      .inl (dropSpace_of_isSpace rfl (by simpa using hline'))⟩

theorem dropSpace_exchange (h : r.length ≤ (dropSpace (s ++ r)).length) :
    ∃ u, u <:+ s ∧ dropSpace (s ++ r) = u ++ r ∧ Leaves u r' (dropSpace (s ++ r')) := by
  by_cases hs : s = [] ∨ s = ['\r']
  · exact ⟨[], nil_suffix, dropSpace_exchange_of_short hr hr' hs h⟩
  · rw [not_or] at hs
    exact ⟨dropSpace s, dropSpace_suffix s, dropSpace_append hs r, .inl (dropSpace_append hs r')⟩

theorem readEscape_exchange (h : r.length ≤ (readEscape (s ++ r)).2.length) :
    s ≠ [] ∧ ∃ u, u.length < s.length ∧ (readEscape (s ++ r)).2 = u ++ r ∧
      (readEscape (s ++ r')).1 = (readEscape (s ++ r)).1 ∧
        Leaves u r' (readEscape (s ++ r')).2 := by
  have hs : s ≠ [] := by
    rintro rfl
    exact absurd h (Nat.not_le.2 (readEscape_length_lt hr.ne_nil))
  obtain ⟨c, u, -, hlt, hread | ⟨hshort, hread⟩⟩ := readEscape_append hs
  · rw [hread r hr.endsName, hread r' hr'.endsName]
    exact ⟨hs, u, hlt, rfl, rfl, .inl rfl⟩
  rw [hread r hr.endsName] at h ⊢
  rw [hread r' hr'.endsName]
  exact ⟨hs, [], length_pos_iff.2 hs, (dropSpace_exchange_of_short hr hr' hshort h).1, rfl,
    (dropSpace_exchange_of_short hr hr' hshort h).2⟩

end

/-! ## Names -/

theorem readName_nul (s : List Char) :
    readName ('\x00' :: s) = (replacementChar :: (readName s).1, (readName s).2) := by
  rw [readName]
  rfl

theorem readName_backslash_newline (h : startsWithNewline s = true) :
    readName ('\\' :: s) = ([], '\\' :: s) := by
  rw [readName]
  simp [h]

theorem startsWithNewline_append (hs : s ≠ []) (r : List Char) :
    startsWithNewline (s ++ r) = startsWithNewline s := by
  obtain ⟨c, s, rfl⟩ := exists_cons_of_ne_nil hs
  rfl

theorem length_readName_backslash_lt (hr : EndsToken r) (h : startsWithNewline r = false) :
    (readName ('\\' :: r)).2.length < r.length := by
  rw [readName_backslash h (Prod.eta _).symm]
  have h₁ := (readName_suffix (readEscape r).2).length_le
  have h₂ := readEscape_length_lt hr.ne_nil
  dsimp only
  omega

theorem getLast?_of_isSuffix (hu : u <:+ s) (h : u.getLast? = some a) : s.getLast? = some a := by
  obtain ⟨w, rfl⟩ := hu
  rw [getLast?_append, h]
  rfl

/-- How a name that begins in `s` goes on in what follows: it has ended, or an escape may take a
space along, or a backslash stands at the end of `s`. -/
inductive NameTail (s : List Char) : (List Char → List Char × List Char) → Prop
  | ends {m : List Char} (hm : m ≠ ['\\']) : NameTail s fun r => ([], m ++ r)
  | space {u : List Char} (hu : u = [] ∨ u = ['\r'] ∧ s.getLast? = some '\r') :
    NameTail s fun r => readName (dropSpace (u ++ r))
  | backslash (hs : s.getLast? = some '\\') : NameTail s fun r => readName ('\\' :: r)

theorem NameTail.of_isSuffix {k : List Char → List Char × List Char} (h : NameTail w k)
    (hw : w <:+ s) : NameTail s k := by
  cases h with
  | ends hm => exact .ends hm
  | space hu => exact .space (hu.imp_right fun hu => ⟨hu.1, getLast?_of_isSuffix hw hu.2⟩)
  | backslash hs => exact .backslash (getLast?_of_isSuffix hw hs)

/-- **Every name goes on in one of these ways**, whatever ends names behind it. -/
theorem exists_nameTail (s : List Char) : ∃ n k, NameTail s k ∧
    ∀ r, EndsName r → readName (s ++ r) = (n ++ (k r).1, (k r).2) := by
  induction hlen : s.length using Nat.strong_induction_on generalizing s with
  | _ l ih =>
    have hstep : ∀ (c : Char) (w : List Char), w <:+ s → w.length < l → (∀ r, EndsName r →
          readName (s ++ r) = (c :: (readName (w ++ r)).1, (readName (w ++ r)).2)) →
        ∃ n k, NameTail s k ∧ ∀ r, EndsName r → readName (s ++ r) = (n ++ (k r).1, (k r).2) := by
      intro c w hw hlt hread
      obtain ⟨n, k, hk, hname⟩ := ih w.length hlt w rfl
      exact ⟨c :: n, k, hk.of_isSuffix hw, fun r hr => by rw [hread r hr, hname r hr]; rfl⟩
    cases s with
    | nil => exact ⟨[], _, .ends (m := []) (by simp), fun r hr => readName_of_endsName hr⟩
    | cons c s =>
      rw [length_cons] at hlen
      by_cases hb : c = '\\'
      · subst hb
        by_cases hs : s = []
        · subst hs
          exact ⟨[], _, .backslash rfl, fun r _ => rfl⟩
        have hline := startsWithNewline_append hs
        cases hnl : startsWithNewline s with
        | true =>
          exact ⟨[], _, .ends (m := '\\' :: s) (by simpa using hs), fun r _ =>
            readName_backslash_newline ((hline r).trans hnl)⟩
        | false =>
          obtain ⟨d, u, hu, hlt, hread | ⟨hshort, hread⟩⟩ := readEscape_append hs
          · exact hstep d u (hu.trans (suffix_cons ..)) (by omega) fun r hr =>
              readName_backslash ((hline r).trans hnl) (hread r hr)
          · refine ⟨[d], _, .space (u := u) (hshort.imp_right fun h => ⟨h, ?_⟩), fun r hr =>
              readName_backslash ((hline r).trans hnl) (hread r hr)⟩
            exact getLast?_of_isSuffix (hu.trans (suffix_cons ..)) (by rw [h]; rfl)
      · by_cases hz : c = '\x00'
        · subst hz
          exact hstep _ s (suffix_cons ..) (by omega) fun r _ => readName_nul _
        cases hn : isNameChar c with
        | true => exact hstep c s (suffix_cons ..) (by omega) fun r _ => readName_cons hn
        | false =>
          exact ⟨[], _, .ends (m := c :: s) (by simp [hb]), fun r _ =>
            readName_of_endsName (endsName_cons hn hb hz)⟩

theorem Leaves.endsToken (hr : EndsPiece r) (h : Leaves [] r rest) : EndsToken rest := by
  rcases h with rfl | ⟨-, hspace⟩
  · exact hr.toEndsToken
  · exact (hr.space _ _ hspace rfl).2.1

/-- **A name that ends before `r` is read before `r'` too.** -/
theorem readName_exchange (hr : EndsToken r) (hr' : EndsPiece r') {n : List Char} (hm : m ≠ ['\\'])
    (h : readName (s ++ r) = (n, m ++ r)) :
    (readName (s ++ r')).1 = n ∧ Leaves m r' (readName (s ++ r')).2 := by
  obtain ⟨p, k, hk, hread⟩ := exists_nameTail s
  rw [hread r hr.endsName, Prod.mk.injEq] at h
  obtain ⟨rfl, hrest⟩ := h
  rw [hread r' hr'.endsName]
  cases hk <;> dsimp only at hrest ⊢
  case ends =>
    obtain rfl := append_cancel_right hrest
    exact ⟨rfl, .inl rfl⟩
  case space u hu =>
    have hle : r.length ≤ (dropSpace (u ++ r)).length := by
      have := (readName_suffix (dropSpace (u ++ r))).length_le
      rw [hrest, length_append] at this
      omega
    obtain ⟨heq, hleaves⟩ := dropSpace_exchange_of_short hr hr' (hu.imp_right And.left) hle
    rw [heq, readName_of_endsName hr.endsName] at hrest
    obtain rfl : m = [] := self_eq_append_left.1 hrest
    rw [heq, readName_of_endsName hr.endsName,
      readName_of_endsName (hleaves.endsToken hr').endsName]
    exact ⟨rfl, hleaves⟩
  case backslash =>
    exfalso
    cases hnl : startsWithNewline r with
    | true =>
      rw [readName_backslash_newline hnl, ← singleton_append] at hrest
      exact hm (append_cancel_right hrest).symm
    | false =>
      have hlt := length_readName_backslash_lt hr hnl
      rw [hrest, length_append] at hlt
      omega

/-! ## Strings and comments -/

theorem length_readString_lt (quote : Char) (hs : s ≠ []) :
    (readString quote s).1 = true ∨ (readString quote s).2.2.length < s.length := by
  obtain ⟨c, s, rfl⟩ := exists_cons_of_ne_nil hs
  have hlt : ∀ t : List Char, t.length ≤ s.length →
      (readString quote t).2.2.length < (c :: s).length := by
    intro t ht
    have := (readString_suffix quote t).length_le
    rw [length_cons]
    omega
  rw [readString]
  split
  · exact .inr (by simp)
  split
  · exact .inl rfl
  split
  · split
    · exact .inr (by simp)
    split
    · exact .inr (hlt _ (dropSpace_suffix s).length_le)
    · exact .inr (hlt _ (readEscape_suffix s).length_le)
  · exact .inr (hlt s (Nat.le_refl _))

theorem readString_ne_append (hr : r ≠ []) (hb : b = true → m ≠ []) :
    readString quote r ≠ (b, v, m ++ r) := by
  intro h
  have hle := (readString_suffix quote r).length_le
  rcases length_readString_lt quote hr with hbroken | hlt
  · rw [h] at hbroken hle
    rw [length_append] at hle
    exact hb hbroken (length_eq_zero_iff.1 (by omega))
  · rw [h, length_append] at hlt
    omega

theorem readString_exchange (hr : EndsToken r) (hr' : EndsPiece r') (hb : b = true → m ≠ [])
    (h : readString quote (s ++ r) = (b, v, m ++ r)) :
    readString quote (s ++ r') = (b, v, m ++ r') := by
  induction hlen : s.length using Nat.strong_induction_on generalizing s v with
  | _ k ih =>
    cases s with
    | nil => exact absurd h (readString_ne_append hr.ne_nil hb)
    | cons c s =>
      have hlong : ∀ t v', readString quote t = (b, v', m ++ r) → r.length ≤ t.length := by
        intro t v' ht
        have := (readString_suffix quote t).length_le
        rw [ht, length_append] at this
        omega
      rw [length_cons] at hlen
      rw [cons_append, readString] at h ⊢
      split at h
      · rename_i hc
        rw [if_pos hc]
        simp only [Prod.mk.injEq, append_cancel_right_eq] at h
        obtain ⟨rfl, rfl, rfl⟩ := h
        rfl
      rename_i hc
      rw [if_neg hc]
      split at h
      · rename_i hnl
        rw [if_pos hnl]
        simp only [Prod.mk.injEq, ← cons_append, append_cancel_right_eq] at h
        obtain ⟨rfl, rfl, rfl⟩ := h
        rfl
      rename_i hnl
      rw [if_neg hnl]
      split at h
      · rename_i hbackslash
        rw [if_pos hbackslash]
        have hempty : ∀ q, EndsToken q → (s ++ q).isEmpty = false := by
          intro q hq
          simp [hq.ne_nil]
        rw [hempty r hr, if_neg Bool.false_ne_true] at h
        rw [hempty r' hr'.toEndsToken, if_neg Bool.false_ne_true]
        split at h
        · rename_i hline
          have hle := hlong _ _ h
          obtain ⟨u, hu, heq, hleaves⟩ := dropSpace_exchange hr hr' hle
          have hs : s ≠ [] := by
            rintro rfl
            obtain ⟨a, w, rfl, -⟩ := hr.exists_cons
            have hspace : isSpace a = true := by
              have hline : isNewline a = true := hline
              rw [isSpace, hline, Bool.or_true]
            exact absurd hle (Nat.not_le.2 (length_dropSpace_lt hspace w))
          rw [startsWithNewline_append hs] at hline ⊢
          rw [if_pos hline]
          rw [heq] at h
          rcases hleaves with hleft | ⟨rfl, -⟩
          · rw [hleft]
            have := hu.length_le
            exact ih u.length (by omega) h rfl
          · exact absurd h (readString_ne_append hr.ne_nil hb)
        · rename_i hline
          simp only [Prod.mk.injEq] at h
          obtain ⟨hbroken, rfl, hrest⟩ := h
          have hread : readString quote (readEscape (s ++ r)).2
              = (b, (readString quote (readEscape (s ++ r)).2).2.1, m ++ r) :=
            Prod.ext hbroken (Prod.ext rfl hrest)
          have hle := hlong _ _ hread
          obtain ⟨hs, u, hu, heq, hchar, hleaves⟩ := readEscape_exchange hr hr' hle
          rw [startsWithNewline_append hs] at hline ⊢
          rw [if_neg hline]
          rw [heq] at hread
          rcases hleaves with hleft | ⟨rfl, -⟩
          · rw [hleft, hchar, heq]
            rw [ih u.length (by omega) hread rfl]
          · exact absurd hread (readString_ne_append hr.ne_nil hb)
      · rename_i hbackslash
        rw [if_neg hbackslash]
        simp only [Prod.mk.injEq] at h
        obtain ⟨hbroken, rfl, hrest⟩ := h
        rw [ih s.length (by omega) (Prod.ext hbroken (Prod.ext rfl hrest)) rfl]

theorem readComment_cons (h : c = '*' → s.head? ≠ some '/') :
    readComment (c :: s) = (c :: (readComment s).1, (readComment s).2) := by
  rw [readComment]
  rintro t rfl rfl
  exact h rfl rfl

theorem length_readComment_lt (hs : s ≠ []) : (readComment s).2.length < s.length := by
  obtain ⟨c, s, rfl⟩ := exists_cons_of_ne_nil hs
  by_cases h : c = '*' ∧ s.head? = some '/'
  · obtain ⟨rfl, h⟩ := h
    obtain ⟨s, rfl⟩ := head?_eq_some_iff.1 h
    simp only [readComment, length_cons]
    omega
  · rw [readComment_cons fun hc hs => h ⟨hc, hs⟩, length_cons]
    exact Nat.lt_succ_of_le (readComment_suffix s).length_le

theorem readComment_exchange (hr : r ≠ []) (r' : List Char)
    (h : readComment (s ++ r) = (v, m ++ r)) : readComment (s ++ r') = (v, m ++ r') := by
  have hend : ∀ v, readComment r ≠ (v, m ++ r) := by
    intro v h
    have := length_readComment_lt hr
    rw [h, length_append] at this
    omega
  induction s generalizing v with
  | nil => exact absurd h (hend v)
  | cons c s ih =>
    rw [cons_append] at h ⊢
    by_cases hc : c = '*' ∧ (s ++ r).head? = some '/'
    · obtain ⟨rfl, hhead⟩ := hc
      cases s with
      | nil =>
        obtain ⟨w, rfl⟩ := head?_eq_some_iff.1 hhead
        rw [nil_append, readComment, Prod.mk.injEq] at h
        have := congrArg length h.2
        rw [length_append, length_cons] at this
        omega
      | cons d s =>
        obtain rfl : d = '/' := Option.some.inj hhead
        rw [cons_append, readComment] at h
        obtain ⟨rfl, rfl⟩ := mk_append_inj h
        rw [cons_append, readComment]
    · rw [readComment_cons fun h₁ h₂ => hc ⟨h₁, h₂⟩, Prod.mk.injEq] at h
      obtain ⟨rfl, hrest⟩ := h
      have hs : s ≠ [] := by
        rintro rfl
        exact hend _ (Prod.ext rfl hrest)
      have hhead : (s ++ r').head? = (s ++ r).head? := by
        obtain ⟨d, s, rfl⟩ := exists_cons_of_ne_nil hs
        rfl
      rw [readComment_cons fun h₁ h₂ => hc ⟨h₁, hhead ▸ h₂⟩, ih (Prod.ext rfl hrest)]

/-! ## Addresses -/

theorem length_readUrlBody_lt (hs : s ≠ []) : (readUrlBody s).2.length < s.length := by
  obtain ⟨c, s, rfl⟩ := exists_cons_of_ne_nil hs
  have hlt : ∀ t : List Char, t.length ≤ s.length → (readUrlBody t).2.length < (c :: s).length := by
    intro t ht
    have := (readUrlBody_suffix t).length_le
    rw [length_cons]
    omega
  rw [readUrlBody]
  split
  · simp
  split
  · have hdrop := (dropWhile_suffix (l := s) isSpace).length_le
    cases hd : s.dropWhile isSpace with
    | nil => simp
    | cons d t =>
      rw [hd, length_cons] at hdrop
      dsimp only
      rw [length_cons]
      split <;> (dsimp only; omega)
  split
  · simp
  split
  · split
    · simp
    · exact hlt _ (readEscape_suffix s).length_le
  · exact hlt s (Nat.le_refl _)

theorem readUrlBody_space_exchange (hr : r ≠ []) (r' : List Char)
    {v : Option (List Char)} (hc : c ≠ ')') (hspace : isSpace c = true)
    (h : readUrlBody (c :: s ++ r) = (v, m ++ r)) : readUrlBody (c :: s ++ r') = (v, m ++ r') := by
  have hclose : (c == ')') = false := by simpa using hc
  rw [cons_append, readUrlBody, hclose, if_neg Bool.false_ne_true, if_pos hspace,
    dropWhile_append] at h
  rw [cons_append, readUrlBody, hclose, if_neg Bool.false_ne_true, if_pos hspace, dropWhile_append]
  cases hd : s.dropWhile isSpace with
  | nil =>
    -- the blanks reach into `r`, and something behind them is read as well
    exfalso
    rw [hd, isEmpty_nil, if_pos rfl] at h
    have hdrop := (dropWhile_suffix (l := r) isSpace).length_le
    have hpos := length_pos_iff.2 hr
    have hlen := congrArg (fun p => p.2.length) h
    cases hw : r.dropWhile isSpace with
    | nil =>
      rw [hw] at hlen
      simp only [length_nil, length_append] at hlen
      omega
    | cons d t =>
      rw [hw] at hlen hdrop
      simp only [length_cons] at hdrop
      dsimp only at hlen
      rw [length_append] at hlen
      split at hlen <;> (dsimp only at hlen; omega)
  | cons d t =>
    rw [hd, isEmpty_cons, if_neg Bool.false_ne_true, cons_append] at h
    rw [isEmpty_cons, if_neg Bool.false_ne_true, cons_append]
    dsimp only at h ⊢
    by_cases hend : (d == ')') = true
    · rw [if_pos hend] at h
      obtain ⟨rfl, rfl⟩ := mk_append_inj h
      rw [if_pos hend]
    · rw [if_neg hend] at h
      obtain ⟨rfl, rfl⟩ := mk_append_inj h
      rw [if_neg hend]

theorem exists_append_of_suffix (h : rest <:+ s ++ r) (hlen : r.length ≤ rest.length) :
    ∃ m, m <:+ s ∧ rest = m ++ r := by
  obtain ⟨m, rfl⟩ := suffix_of_suffix_length_le (suffix_append s r) h hlen
  obtain ⟨p, hp⟩ := h
  rw [← append_assoc, append_cancel_right_eq] at hp
  exact ⟨m, ⟨p, hp⟩, rfl⟩

theorem readUrlBody_exchange (hr : EndsToken r) (hr' : EndsPiece r') {v : Option (List Char)}
    (hv : v = none → m ≠ []) (h : readUrlBody (s ++ r) = (v, m ++ r)) :
    readUrlBody (s ++ r') = (v, m ++ r') := by
  have hend : ∀ v, readUrlBody r ≠ (v, m ++ r) := by
    intro v h
    have := length_readUrlBody_lt hr.ne_nil
    rw [h, length_append] at this
    omega
  induction hlen : s.length using Nat.strong_induction_on generalizing s v with
  | _ k ih =>
    cases s with
    | nil => exact absurd h (hend v)
    | cons c s =>
      rw [length_cons] at hlen
      by_cases hblank : c ≠ ')' ∧ isSpace c = true
      · exact readUrlBody_space_exchange hr.ne_nil r' hblank.1 hblank.2 h
      rw [cons_append, readUrlBody] at h ⊢
      split at h
      · rename_i hc
        rw [if_pos hc]
        obtain ⟨rfl, rfl⟩ := mk_append_inj h
        rfl
      rename_i hc
      have hspace : ¬ isSpace c = true := fun hspace => hblank ⟨by simpa using hc, hspace⟩
      rw [if_neg hspace] at h
      rw [if_neg hc, if_neg hspace]
      split at h
      · rename_i hforbidden
        rw [if_pos hforbidden]
        obtain ⟨rfl, rfl⟩ := mk_append_inj h
        rfl
      rename_i hforbidden
      rw [if_neg hforbidden]
      split at h
      · rename_i hbackslash
        rw [if_pos hbackslash]
        split at h
        · rename_i hline
          obtain ⟨rfl, rfl⟩ := mk_append_inj h
          rw [startsWithNewline_append (hv rfl)] at hline ⊢
          rw [if_pos hline]
        rename_i hline
        rw [Prod.mk.injEq] at h
        obtain ⟨rfl, hrest⟩ := h
        have hle : r.length ≤ (readEscape (s ++ r)).2.length := by
          have := (readUrlBody_suffix (readEscape (s ++ r)).2).length_le
          rw [hrest, length_append] at this
          omega
        obtain ⟨hs, u, hu, heq, hchar, hleaves⟩ := readEscape_exchange hr hr' hle
        rw [startsWithNewline_append hs] at hline ⊢
        rw [if_neg hline]
        rw [heq] at hrest hv ⊢
        rcases hleaves with hleft | ⟨rfl, -⟩
        · rw [hleft, hchar]
          rw [ih u.length (by omega) (fun hnone => hv (Option.map_eq_none_iff.2 hnone))
            (Prod.ext rfl hrest) rfl]
        · exact (hend _ (Prod.ext rfl hrest)).elim
      · rename_i hbackslash
        rw [if_neg hbackslash]
        rw [Prod.mk.injEq] at h
        obtain ⟨rfl, hrest⟩ := h
        rw [ih s.length (by omega) (fun hnone => hv (Option.map_eq_none_iff.2 hnone))
          (Prod.ext rfl hrest) rfl]

theorem skipBadUrl_cons (h : c ≠ ')') (hb : c ≠ '\\') : skipBadUrl (c :: s) = skipBadUrl s := by
  rw [skipBadUrl]
  · exact fun hc => h hc
  · exact fun _ _ hc => absurd hc hb

theorem skipBadUrl_eq_cons (h : skipBadUrl s = c :: rest) : c = ')' := by
  fun_induction skipBadUrl s with
  | case1 => cases h
  | case2 s => exact (cons.inj h).1.symm
  | case3 c s _ ih | case4 c s _ ih | case5 c s _ _ ih => exact ih h

theorem skipBadUrl_exchange (hr : r ≠ []) (r' : List Char)
    (h : skipBadUrl (s ++ r) = ')' :: m ++ r) : skipBadUrl (s ++ r') = ')' :: m ++ r' := by
  have hend : ∀ t, t.length ≤ r.length → skipBadUrl t ≠ ')' :: m ++ r := by
    intro t ht h
    have := (skipBadUrl_suffix t).length_le
    rw [h, cons_append, length_cons, length_append] at this
    omega
  induction hlen : s.length using Nat.strong_induction_on generalizing s with
  | _ k ih =>
    cases s with
    | nil => exact absurd h (hend r (Nat.le_refl _))
    | cons c s =>
      rw [length_cons] at hlen
      rw [cons_append] at h ⊢
      by_cases hc : c = ')'
      · subst hc
        rw [skipBadUrl, cons_append, List.cons.injEq, append_cancel_right_eq] at h
        rw [skipBadUrl, h.2, cons_append]
      by_cases hb : c = '\\'
      · subst hb
        cases s with
        | nil =>
          exfalso
          obtain ⟨a, w, rfl⟩ := exists_cons_of_ne_nil hr
          rw [nil_append, skipBadUrl] at h
          split at h
          · exact hend w (by simp) h
          · exact hend (a :: w) (Nat.le_refl _) h
        | cons d s =>
          rw [cons_append, skipBadUrl] at h ⊢
          rw [length_cons] at hlen
          split at h
          · rename_i hd
            rw [if_pos hd]
            exact ih s.length (by omega) h rfl
          · rename_i hd
            rw [if_neg hd]
            exact ih (d :: s).length (by simp; omega) h rfl
      · rw [skipBadUrl_cons hc hb] at h ⊢
        exact ih s.length (by omega) h rfl

theorem consumed_append_append (s m r : List Char) : consumed (s ++ r) (m ++ r) = consumed s m := by
  have hlen : (s ++ r).length - (m ++ r).length = s.length - m.length := by
    simp only [length_append]
    omega
  rw [consumed, consumed, hlen, take_append_of_le_length (Nat.sub_le ..)]

theorem readUrl_eq_none_iff : readUrl s = none ↔
    (s.dropWhile isSpace).head? = some '"' ∨ (s.dropWhile isSpace).head? = some '\'' := by
  unfold readUrl
  dsimp only
  split
  · simp [*]
  · simp [*]
  rename_i h₁ h₂
  constructor
  · intro h
    split at h <;> cases h
  · intro h
    rcases h with h | h
    · obtain ⟨w, hw⟩ := head?_eq_some_iff.1 h
      exact absurd hw (h₁ w)
    · obtain ⟨w, hw⟩ := head?_eq_some_iff.1 h
      exact absurd hw (h₂ w)

theorem readUrl_eq_some_iff (hs : readUrl s ≠ none) :
    readUrl s = some (t, rest) ↔
      (∃ v, readUrlBody (s.dropWhile isSpace) = (some v, rest) ∧ t = .url (String.ofList v)) ∨
      ∃ rest₀, readUrlBody (s.dropWhile isSpace) = (none, rest₀) ∧ rest = (skipBadUrl rest₀).tail ∧
        t = .badUrl (String.ofList (consumed (s.dropWhile isSpace) (skipBadUrl rest₀))) := by
  unfold readUrl at hs ⊢
  dsimp only at hs ⊢
  split at hs
  · exact absurd rfl hs
  · exact absurd rfl hs
  rcases readUrlBody (s.dropWhile isSpace) with ⟨_ | v, rest₀⟩
  · simp only [Option.some.injEq, Prod.mk.injEq, reduceCtorEq, false_and, exists_false, false_or,
      true_and, exists_eq_left']
    exact ⟨fun h => ⟨h.2.symm, h.1.symm⟩, fun h => ⟨h.2.symm, h.1.symm⟩⟩
  simp only [Option.some.injEq, Prod.mk.injEq, reduceCtorEq, false_and, exists_false, or_false]
  constructor
  · exact fun h => ⟨v, ⟨rfl, h.2⟩, h.1.symm⟩
  · rintro ⟨_, ⟨rfl, h₁⟩, h₂⟩
    exact ⟨h₂.symm, h₁⟩

/-- **An address that ends before `r` is read before `r'` too**; so is the quote that says that there
is none. -/
theorem readUrl_exchange (hr : EndsToken r) (hr' : EndsPiece r') (hs : s.dropWhile isSpace ≠ []) :
    (readUrl (s ++ r) = none → readUrl (s ++ r') = none) ∧
      ∀ t m, readUrl (s ++ r) = some (t, m ++ r) → readUrl (s ++ r') = some (t, m ++ r') := by
  have hbody : ∀ q, (s ++ q).dropWhile isSpace = s.dropWhile isSpace ++ q := by
    intro q
    rw [dropWhile_append, if_neg]
    simpa using hs
  have hhead : ((s ++ r').dropWhile isSpace).head? = ((s ++ r).dropWhile isSpace).head? := by
    rw [hbody, hbody]
    obtain ⟨c, d, hd⟩ := exists_cons_of_ne_nil hs
    rw [hd]
    rfl
  have hnone : readUrl (s ++ r') = none ↔ readUrl (s ++ r) = none := by
    rw [readUrl_eq_none_iff, readUrl_eq_none_iff, hhead]
  refine ⟨hnone.2, fun t m h => ?_⟩
  have hsome : readUrl (s ++ r) ≠ none := by
    rw [h]
    exact Option.some_ne_none _
  rw [readUrl_eq_some_iff hsome, hbody] at h
  rw [readUrl_eq_some_iff (fun h' => hsome (hnone.1 h')), hbody]
  rcases h with ⟨v, hread, rfl⟩ | ⟨rest, hread, hrest, rfl⟩
  · exact .inl ⟨v, readUrlBody_exchange hr hr' nofun hread, rfl⟩
  -- the bracket that ends the address is skipped too, so it stands before `r`
  obtain ⟨c, hskip⟩ : ∃ c, skipBadUrl rest = c :: (m ++ r) := by
    cases hskip : skipBadUrl rest with
    | nil =>
      rw [hskip, tail_nil] at hrest
      exact absurd (append_eq_nil_iff.1 hrest).2 hr.ne_nil
    | cons c w => exact ⟨c, by rw [hrest, hskip, tail_cons]⟩
  obtain rfl := skipBadUrl_eq_cons hskip
  have hlong := (skipBadUrl_suffix rest).length_le
  rw [hskip, length_cons, length_append] at hlong
  have hsuffix := readUrlBody_suffix (s.dropWhile isSpace ++ r)
  rw [hread] at hsuffix
  dsimp only at hsuffix
  obtain ⟨m₀, -, rfl⟩ := exists_append_of_suffix hsuffix (by omega)
  have hm₀ : m₀ ≠ [] := by
    rintro rfl
    rw [nil_append] at hlong
    omega
  have hskip' := skipBadUrl_exchange hr.ne_nil r' hskip
  refine .inr ⟨m₀ ++ r', readUrlBody_exchange hr hr' (fun _ => hm₀) hread, ?_, ?_⟩
  · rw [hskip']
    rfl
  · rw [hskip', hskip, ← cons_append, consumed_append_append, consumed_append_append]

theorem length_readUrl_lt (hs : s ≠ []) (h : readUrl s = some (t, rest)) :
    rest.length < s.length := by
  have hdrop := (dropWhile_suffix (l := s) isSpace).length_le
  have hpos := length_pos_iff.2 hs
  have hbody : (readUrlBody (s.dropWhile isSpace)).2.length < s.length := by
    by_cases hb : s.dropWhile isSpace = []
    · rw [hb, readUrlBody]
      exact hpos
    · have := length_readUrlBody_lt hb
      omega
  have hsome : readUrl s ≠ none := by
    rw [h]
    exact Option.some_ne_none _
  rcases (readUrl_eq_some_iff hsome).1 h with ⟨v, hread, -⟩ | ⟨rest₀, hread, rfl, -⟩
  · rwa [hread] at hbody
  rw [hread] at hbody
  have h₁ := (skipBadUrl_suffix rest₀).length_le
  have h₂ := (tail_suffix (skipBadUrl rest₀)).length_le
  dsimp only at hbody
  omega

end StyleBlocks
