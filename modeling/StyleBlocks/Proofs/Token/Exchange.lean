import StyleBlocks.Proofs.Token.Boundaries

/-!
# What follows a token may be exchanged
-/

namespace StyleBlocks

open List

variable {a c : Char} {m q s r r' : List Char} {t : Token}

/-! ## Identifiers -/

theorem readIdentLike_of_paren {n : List Char} (h : readName s = (n, '(' :: q)) :
    readIdentLike s = if n.map Char.toLower == "url".toList then
      (readUrl q).getD (.function (String.ofList n), q) else (.function (String.ofList n), q) := by
  rw [readIdentLike, h]
  rfl

theorem readIdentLike_of_head? {n : List Char} (h : readName s = (n, q)) (hq : q.head? ≠ some '(') :
    readIdentLike s = (.ident (String.ofList n), q) := by
  rw [readIdentLike, h]
  dsimp only
  split
  · exact absurd rfl hq
  · rfl

theorem Leaves.eq_append {r rest : List Char} (hm : m ≠ []) (h : Leaves m r rest) :
    rest = m ++ r := by
  rcases h with h | ⟨h, -⟩
  · exact h
  · exact absurd h hm

theorem readIdentLike_exchange (hr : EndsToken r) (hr' : EndsPiece r') (hm : m ≠ ['\\'])
    (hfunction : ∀ name, t = .function name → m.dropWhile isSpace ≠ [])
    (h : readIdentLike (s ++ r) = (t, m ++ r)) :
    (readIdentLike (s ++ r')).1 = t ∧ Leaves m r' (readIdentLike (s ++ r')).2 := by
  have hle := (readIdentLike_suffix (s ++ r)).length_le
  rw [h, length_append] at hle
  rcases hname : readName (s ++ r) with ⟨n, q⟩
  rw [hname] at hle
  have hsuffix := readName_suffix (s ++ r)
  rw [hname] at hsuffix
  obtain ⟨q, -, rfl⟩ := exists_append_of_suffix hsuffix (by dsimp only at hle ⊢; omega)
  by_cases hparen : (q ++ r).head? = some '('
  · -- the bracket is no part of `r`, so the name ends before it whatever follows
    obtain ⟨q, rfl⟩ : ∃ q', q = '(' :: q' := by
      cases q with
      | nil =>
        have := (hr.head _ hparen).mark
        exact absurd (by simp) this
      | cons c q =>
        obtain rfl : c = '(' := Option.some.inj hparen
        exact ⟨q, rfl⟩
    obtain ⟨hname', hleaves⟩ := readName_exchange hr hr' (by simp) hname
    rw [readIdentLike_of_paren (q := q ++ r) hname] at h
    rw [readIdentLike_of_paren (q := q ++ r') (Prod.ext hname' (hleaves.eq_append (by simp)))]
    split at h
    · rename_i hurl
      rw [if_pos hurl]
      cases hread : readUrl (q ++ r) with
      | none =>
        rw [hread, Option.getD_none] at h
        obtain ⟨rfl, rfl⟩ := mk_append_inj h
        rw [(readUrl_exchange hr hr' (hfunction _ rfl)).1 hread]
        exact ⟨rfl, .inl rfl⟩
      | some p =>
        rw [hread, Option.getD_some] at h
        subst h
        have hq : q.dropWhile isSpace ≠ [] := by
          intro hq
          have hbody : (q ++ r).dropWhile isSpace = r.dropWhile isSpace := by
            rw [dropWhile_append, hq]
            rfl
          have hurl : readUrl r = some (t, m ++ r) := by
            rw [← hread]
            unfold readUrl
            rw [hbody]
          have hlt := length_readUrl_lt hr.ne_nil hurl
          rw [length_append] at hlt
          omega
        rw [(readUrl_exchange hr hr' hq).2 _ _ hread]
        exact ⟨rfl, .inl rfl⟩
    · rename_i hurl
      rw [if_neg hurl]
      obtain ⟨rfl, rfl⟩ := mk_append_inj h
      exact ⟨rfl, .inl rfl⟩
  · rw [readIdentLike_of_head? hname hparen] at h
    obtain ⟨rfl, rfl⟩ := mk_append_inj h
    obtain ⟨hname', hleaves⟩ := readName_exchange hr hr' hm hname
    have hhead : (readName (s ++ r')).2.head? ≠ some '(' := by
      cases q with
      | nil =>
        intro hhead
        have := ((hleaves.endsToken hr').head _ hhead).mark
        exact absurd (by simp) this
      | cons c q =>
        rw [hleaves.eq_append (by simp)]
        exact hparen
    rw [readIdentLike_of_head? (Prod.ext hname' rfl) hhead]
    exact ⟨rfl, hleaves⟩

/-! ## Numbers -/

theorem readSign_cons (h : c ≠ '+' ∧ c ≠ '-') (s : List Char) :
    readSign (c :: s) = (none, c :: s) := by
  rw [readSign]
  · exact fun _ heq => h.1 (cons.inj heq).1
  · exact fun _ heq => h.2 (cons.inj heq).1

theorem readFraction_cons (h : c ≠ '.') (s : List Char) :
    readFraction (c :: s) = (none, c :: s) := by
  rw [readFraction]
  exact fun _ _ heq => h (cons.inj heq).1

theorem readFraction_point (h : c.isDigit = false) (s : List Char) :
    readFraction ('.' :: c :: s) = (none, '.' :: c :: s) := by
  rw [readFraction, h, if_neg Bool.false_ne_true]

theorem Stop.isDigit (h : Stop a) : a.isDigit = false :=
  isDigit_of_not_isNameChar h.name

theorem Stop.ne_point (h : Stop a) : a ≠ '.' := by
  rintro rfl
  exact h.mark (by simp)

theorem Stop.ne_sign (h : Stop a) : a ≠ '+' ∧ a ≠ '-' := by
  constructor
  · rintro rfl
    exact h.mark (by simp)
  · rintro rfl
    exact absurd h.name (by decide)

section

variable (hr : EndsToken r)

include hr

theorem startsUnsigned_append (s : List Char) : startsUnsigned (s ++ r) = startsUnsigned s := by
  obtain ⟨a, w, rfl, ha⟩ := hr.exists_cons
  cases s with
  | nil =>
    rw [nil_append, startsUnsigned_cons ha.ne_point, ha.isDigit]
    rfl
  | cons c s =>
    rw [cons_append]
    by_cases hc : c = '.'
    · subst hc
      cases s with
      | nil =>
        rw [nil_append, startsUnsigned, ha.isDigit]
        rfl
      | cons d s => rfl
    · rw [startsUnsigned_cons hc, startsUnsigned_cons hc]

theorem startsNumber_append (s : List Char) : startsNumber (s ++ r) = startsNumber s := by
  cases s with
  | nil =>
    obtain ⟨a, w, rfl, ha⟩ := hr.exists_cons
    rw [nil_append, startsNumber_cons ha.ne_sign]
    exact startsUnsigned_append hr []
  | cons c s =>
    by_cases hc : c = '+' ∨ c = '-'
    · rcases hc with rfl | rfl <;> exact startsUnsigned_append hr s
    · rw [not_or] at hc
      rw [cons_append, startsNumber_cons hc, startsNumber_cons hc, ← cons_append,
        startsUnsigned_append hr]

theorem readSign_append (s : List Char) :
    readSign (s ++ r) = ((readSign s).1, (readSign s).2 ++ r) := by
  cases s with
  | nil =>
    obtain ⟨a, w, rfl, ha⟩ := hr.exists_cons
    exact readSign_cons ha.ne_sign w
  | cons c s =>
    by_cases hc : c = '+' ∨ c = '-'
    · rcases hc with rfl | rfl <;> rfl
    · rw [not_or] at hc
      rw [cons_append, readSign_cons hc, readSign_cons hc, cons_append]

theorem readFraction_append (s : List Char) :
    readFraction (s ++ r) = ((readFraction s).1, (readFraction s).2 ++ r) := by
  obtain ⟨a, w, rfl, ha⟩ := hr.exists_cons
  cases s with
  | nil => exact readFraction_cons ha.ne_point w
  | cons c s =>
    by_cases hc : c = '.'
    · subst hc
      cases s with
      | nil => exact readFraction_point ha.isDigit w
      | cons d s =>
        cases hd : d.isDigit with
        | false =>
          rw [cons_append, cons_append, readFraction_point hd, readFraction_point hd]
          rfl
        | true =>
          obtain ⟨htake, hdrop⟩ := takeWhile_append_of_head (p := Char.isDigit) (r := a :: w)
            (fun b hb => (hr.head b hb).isDigit) (d :: s)
          rw [cons_append] at htake hdrop
          rw [cons_append, cons_append, readFraction, readFraction, hd, if_pos rfl,
            if_pos rfl, htake, hdrop]
    · rw [cons_append, readFraction_cons hc, readFraction_cons hc, cons_append]

theorem readExponent_append (s : List Char) :
    readExponent (s ++ r) = ((readExponent s).1, (readExponent s).2 ++ r) := by
  cases s with
  | nil =>
    obtain ⟨a, w, rfl, ha⟩ := hr.exists_cons
    have he : (a == 'e' || a == 'E') = false := by
      have hname := ha.name
      rw [Bool.or_eq_false_iff]
      constructor
      all_goals
        rw [beq_eq_false_iff_ne]
        rintro rfl
        exact absurd hname (by decide)
    rw [nil_append]
    simp [readExponent, he]
  | cons c s =>
    have hsign := readSign_append hr s
    rcases hs : readSign s with ⟨sign, u⟩
    rw [hs] at hsign
    have hhead : (u ++ r).head?.any Char.isDigit = u.head?.any Char.isDigit := by
      cases u with
      | nil =>
        obtain ⟨a, w, rfl, ha⟩ := hr.exists_cons
        simp [ha.isDigit]
      | cons d u => rfl
    obtain ⟨htake, hdrop⟩ := takeWhile_append_of_head (p := Char.isDigit) (r := r)
      (fun b hb => (hr.head b hb).isDigit) u
    rw [cons_append, readExponent, readExponent, hsign, hs]
    dsimp only
    rw [hhead, htake, hdrop]
    split <;> rfl

theorem readNumeral_append (s : List Char) :
    readNumeral (s ++ r) = ((readNumeral s).1, (readNumeral s).2 ++ r) := by
  obtain ⟨htake, hdrop⟩ := takeWhile_append_of_head (p := Char.isDigit) (r := r)
    (fun b hb => (hr.head b hb).isDigit) (readSign s).2
  simp only [readNumeral, readSign_append hr, htake, hdrop, readFraction_append hr,
    readExponent_append hr]

end

/-! ## All tokens -/

theorem Token.read_backslash (hr : EndsToken r) (h : Token.read '\\' r = (t, m ++ r)) :
    m = [] ∧ t = .delim '\\' := by
  have hread : Token.read '\\' r
      = if startsIdent ('\\' :: r) then readIdentLike ('\\' :: r) else (.delim '\\', r) := rfl
  rw [hread] at h
  split at h
  · rename_i hstart
    have hlt := length_readName_backslash_lt hr (by simpa [startsIdent] using hstart)
    have hle := (readIdentLike_suffix ('\\' :: r)).length_le
    rw [h, length_append] at hle
    omega
  · rw [Prod.mk.injEq] at h
    exact ⟨self_eq_append_left.1 h.2, h.1.symm⟩

theorem Stop.isNameStart (h : Stop a) : isNameStart a = false := by
  cases hs : StyleBlocks.isNameStart a with
  | false => rfl
  | true =>
    exfalso
    have hname := h.name
    unfold StyleBlocks.isNameStart at hs
    unfold isNameChar Char.isAlphanum at hname
    simp only [Bool.or_eq_true, Bool.or_eq_false_iff, beq_iff_eq, decide_eq_true_eq,
      decide_eq_false_iff_not, beq_eq_false_iff_ne] at hname hs
    rcases hs with ((hs | hs) | hs) | hs
    · rw [hname.1.1.1.1] at hs
      cases hs
    · exact hname.1.1.2 hs
    · exact h.nul hs
    · exact hname.2 hs

theorem Stop.startsIdent (h : Stop a) (w : List Char) :
    startsIdent (a :: w) = false ∧ StyleBlocks.startsIdent ('-' :: a :: w) = false := by
  constructor
  · rw [startsIdent_cons h.ne_sign.2 h.backslash, h.isNameStart]
  · rw [StyleBlocks.startsIdent, h.isNameStart, Bool.false_or, Bool.or_eq_false_iff]
    exact ⟨beq_eq_false_iff_ne.2 h.ne_sign.2, beq_eq_false_iff_ne.2 h.backslash⟩

theorem readNumeric_of_percent {n : Numeral} (h : readNumeral s = (n, '%' :: q)) :
    readNumeric s = (.percentage n, q) := by
  rw [readNumeric, h]
  rfl

theorem readNumeric_of_head? {n : Numeral} (h : readNumeral s = (n, q)) (hq : q.head? ≠ some '%') :
    readNumeric s = if startsIdent q then
      (.dimension n (String.ofList (readName q).1), (readName q).2) else (.number n, q) := by
  rw [readNumeric, h]
  dsimp only
  split
  · exact absurd rfl hq
  · rfl

theorem EndsToken.head?_any_append (hq : EndsToken q) (s : List Char) :
    (s ++ q).head?.any (fun c => c.isDigit || c == '-')
      = s.head?.any (fun c => c.isDigit || c == '-') := by
  cases s with
  | nil =>
    obtain ⟨a, w, rfl, ha⟩ := hq.exists_cons
    simp [ha.isDigit, ha.ne_sign.2]
  | cons c s => rfl

theorem EndsToken.startsIdent_append (hr : EndsToken r) (hs : s ≠ ['\\']) :
    startsIdent (s ++ r) = startsIdent s := by
  obtain ⟨a, w, rfl, ha⟩ := hr.exists_cons
  cases s with
  | nil => exact (ha.startsIdent w).1
  | cons c s =>
    rw [cons_append]
    by_cases hc : c = '-'
    · subst hc
      cases s with
      | nil => exact (ha.startsIdent w).2
      | cons d s => rfl
    by_cases hb : c = '\\'
    · subst hb
      have hs : s ≠ [] := fun h => hs (by rw [h])
      rw [startsIdent, startsIdent, startsWithNewline_append hs]
    · rw [startsIdent_cons hc hb, startsIdent_cons hc hb]

/-- A token that a space or a mark behind it does not change: no space, no string that its line ends,
no backslash alone, and no function, whose name may be looked behind. -/
def Token.isFirm : Token → Bool
  | .space _ | .badString _ | .function _ => false
  | .delim c => c != '\\'
  | _ => true

theorem readPair_append (c : Char) {next : Char} (t : Token) (hr : r.head? ≠ some next)
    (hne : r ≠ []) (s : List Char) :
    readPair c next t (s ++ r) = ((readPair c next t s).1, (readPair c next t s).2 ++ r) := by
  cases s with
  | nil =>
    obtain ⟨a, w, rfl⟩ := exists_cons_of_ne_nil hne
    have ha : (a == next) = false := beq_eq_false_iff_ne.2 fun h => hr (by rw [h]; rfl)
    rw [nil_append, readPair, ha, if_neg Bool.false_ne_true]
    rfl
  | cons d s =>
    rw [cons_append, readPair, readPair]
    split <;> rfl

theorem readAngle_of_take (h : s.take 3 ≠ ['!', '-', '-']) : readAngle s = (.delim '<', s) := by
  rw [readAngle]
  rintro t rfl
  exact h rfl

theorem readAngle_append (hr : EndsToken r) (s : List Char) :
    readAngle (s ++ r) = ((readAngle s).1, (readAngle s).2 ++ r) := by
  by_cases hs : s.take 3 = ['!', '-', '-']
  · rw [← take_append_drop 3 s, hs]
    rfl
  have hsr : (s ++ r).take 3 ≠ ['!', '-', '-'] := by
    obtain ⟨a, w, rfl, ha⟩ := hr.exists_cons
    intro h
    rcases s with _ | ⟨b, _ | ⟨c, _ | ⟨d, s⟩⟩⟩
    · have htake : (a :: w).take 2 = ((a :: w).take 3).take 2 := by
        rw [take_take]
        rfl
      rw [nil_append] at h
      rw [h] at htake
      exact hr.comment htake
    · simp only [cons_append, nil_append, take_succ_cons, cons.injEq] at h
      exact ha.ne_sign.2 h.2.1
    · simp only [cons_append, nil_append, take_succ_cons, cons.injEq] at h
      exact ha.ne_sign.2 h.2.2.1
    · exact hs h
  rw [readAngle_of_take hs, readAngle_of_take hsr]

theorem take_two_append (hr : EndsToken r) (s : List Char) :
    ((s ++ r).take 2 == ['-', '>']) = (s.take 2 == ['-', '>']) := by
  obtain ⟨a, w, rfl, ha⟩ := hr.exists_cons
  have hangle : a ≠ '>' := fun h => ha.mark (by simp [h])
  rcases s with _ | ⟨d, _ | ⟨e, s⟩⟩
  · simp [ha.ne_sign.2]
  · simp [hangle]
  · simp

theorem readSlash_of_head? (h : s.head? ≠ some '*') : readSlash s = (.delim '/', s) := by
  rw [readSlash]
  rintro t rfl
  exact h rfl

theorem readMark_delim (hs : isSpace c = false)
    (hc : c ∉ ['"', '\'', '#', '@', '/', '<', '$', '*', '^', '|', '~', '(', ')', '[', ']', '\x7b',
      '\x7d', ',', ':', ';'])
    (s : List Char) : readMark c s = (.delim c, s) := by
  unfold readMark
  rw [hs, if_neg Bool.false_ne_true]
  split
  all_goals first | rfl | exact absurd (by simp) hc

/-! ## Courses of reading -/

namespace Token

/-- The ways to read a token that begins in `s`, given by what they read before `r`. -/
inductive Course (s : List Char) : (List Char → Token × List Char) → Prop
  | ends (t : Token) (m : List Char) : Course s fun r => (t, m ++ r)
  | name (word : List Char → Token) {u : List Char} (hu : u <:+ s) :
    Course s fun r => (word (readName (u ++ r)).1, (readName (u ++ r)).2)
  | backslash (word : List Char → Token) (t : Token) (hs : s.getLast? = some '\\') :
    Course s fun r => if startsIdent ('\\' :: r) then
      (word (readName ('\\' :: r)).1, (readName ('\\' :: r)).2) else (t, '\\' :: r)
  | identLike : Course s fun r => readIdentLike (s ++ r)
  | quoted {q : Char} (hq : q ∈ ['"', '\'']) (u : List Char) : Course s fun r => readQuoted q (u ++ r)
  | comment (u : List Char) : Course s fun r => readSlash ('*' :: (u ++ r))
  | space (c : Char) (u : List Char) : Course s fun r =>
    (.space (String.ofList (c :: (u ++ r).takeWhile isSpace)), (u ++ r).dropWhile isSpace)

/-- The reader `f` takes one of these ways, whatever ends tokens behind `s`. -/
def HasCourse (s : List Char) (f : List Char → Token × List Char) : Prop :=
  ∃ g, Course s g ∧ ∀ r, EndsToken r → f r = g r

theorem hasCourse_of_startsIdent {u : List Char} {f : List Char → Token × List Char} (hu : u <:+ s)
    (word : List Char → Token) (t : Token)
    (h : ∀ r, EndsToken r → f r = if startsIdent (u ++ r) then
      (word (readName (u ++ r)).1, (readName (u ++ r)).2) else (t, u ++ r)) :
    HasCourse s f := by
  by_cases hb : u = ['\\']
  · subst hb
    exact ⟨_, .backslash word t (getLast?_of_isSuffix hu rfl), h⟩
  cases hstart : startsIdent u with
  | true =>
    refine ⟨_, .name word hu, fun r hr => ?_⟩
    rw [h r hr, hr.startsIdent_append hb, hstart, if_pos rfl]
  | false =>
    refine ⟨_, .ends t u, fun r hr => ?_⟩
    rw [h r hr, hr.startsIdent_append hb, hstart, if_neg Bool.false_ne_true]

theorem hasCourse_readNumeric (s : List Char) : HasCourse s fun r => readNumeric (s ++ r) := by
  have hnumeral : ∀ r, EndsToken r →
      readNumeral (s ++ r) = ((readNumeral s).1, (readNumeral s).2 ++ r) :=
    fun r hr => readNumeral_append hr s
  have hsuffix := readNumeral_suffix s
  generalize readNumeral s = numeral at hnumeral hsuffix
  obtain ⟨n, q⟩ := numeral
  by_cases hq : q.head? = some '%'
  · obtain ⟨q, rfl⟩ := head?_eq_some_iff.1 hq
    exact ⟨_, .ends (.percentage n) q, fun r hr => readNumeric_of_percent (hnumeral r hr)⟩
  refine hasCourse_of_startsIdent hsuffix (fun unit => .dimension n (String.ofList unit))
    (.number n) fun r hr => readNumeric_of_head? (hnumeral r hr) ?_
  cases q with
  | nil => exact fun hhead => (hr.head _ hhead).mark (by simp)
  | cons c q => exact hq

theorem hasCourse_readHash (s : List Char) : HasCourse ('#' :: s) fun r => readHash (s ++ r) := by
  cases hdigit : s.head?.any (fun c => c.isDigit || c == '-') with
  | true =>
    have hb : s ≠ ['\\'] := by
      rintro rfl
      exact absurd hdigit (by decide)
    refine ⟨_, .name (fun name => if startsIdent s then .idHash (String.ofList name)
      else .hash (String.ofList name)) (suffix_cons ..), fun r hr => ?_⟩
    unfold readHash
    dsimp only
    rw [hr.startsIdent_append hb, hr.head?_any_append, hdigit]
    split <;> rfl
  | false =>
    refine hasCourse_of_startsIdent (suffix_cons ..) (fun name => .idHash (String.ofList name))
      (.delim '#') fun r hr => ?_
    unfold readHash
    rw [hr.head?_any_append, hdigit]
    rfl

theorem hasCourse_readSlash (s : List Char) : HasCourse ('/' :: s) fun r => readSlash (s ++ r) := by
  by_cases hs : s.head? = some '*'
  · obtain ⟨s, rfl⟩ := head?_eq_some_iff.1 hs
    exact ⟨_, .comment s, fun r _ => rfl⟩
  refine ⟨_, .ends (.delim '/') s, fun r hr => readSlash_of_head? ?_⟩
  cases s with
  | nil => exact fun hhead => (hr.head _ hhead).mark (by simp)
  | cons c s => exact hs

theorem hasCourse_readMark (c : Char) (s : List Char) :
    HasCourse (c :: s) fun r => readMark c (s ++ r) := by
  have hpair : ∀ t, (∀ q, readMark c q = readPair c '=' t q) →
      HasCourse (c :: s) fun r => readMark c (s ++ r) := by
    intro t hread
    exact ⟨_, .ends _ _, fun r hr => (hread _).trans
      (readPair_append c t (fun hhead => (hr.head _ hhead).mark (by simp)) hr.ne_nil s)⟩
  cases hs : isSpace c with
  | true => exact ⟨_, .space c s, fun r _ => if_pos hs⟩
  | false =>
    by_cases hc : c ∈ ['"', '\'', '#', '@', '/', '<', '$', '*', '^', '|', '~', '(', ')', '[', ']',
      '\x7b', '\x7d', ',', ':', ';']
    · simp only [List.mem_cons, List.not_mem_nil, or_false] at hc
      rcases hc with rfl | rfl | rfl | rfl | rfl | rfl | rfl | rfl | rfl | rfl | rfl | rfl | rfl |
        rfl | rfl | rfl | rfl | rfl | rfl | rfl
      · exact ⟨_, .quoted (q := '"') (by simp) s, fun _ _ => rfl⟩
      · exact ⟨_, .quoted (q := '\'') (by simp) s, fun _ _ => rfl⟩
      · exact hasCourse_readHash s
      · exact hasCourse_of_startsIdent (suffix_cons ..)
          (fun name => .atKeyword (String.ofList name)) (.delim '@') fun _ _ => rfl
      · exact hasCourse_readSlash s
      · exact ⟨_, .ends _ _, fun r hr => readAngle_append hr s⟩
      · exact hpair .suffixMatch fun _ => rfl
      · exact hpair .substringMatch fun _ => rfl
      · exact hpair .prefixMatch fun _ => rfl
      · exact hpair .dashMatch fun _ => rfl
      · exact hpair .includeMatch fun _ => rfl
      all_goals exact ⟨_, .ends _ s, fun _ _ => rfl⟩
    · exact ⟨_, .ends (.delim c) s, fun r _ => readMark_delim hs hc _⟩

/-- **Every token is read in one of these ways**, a backslash alone apart. -/
theorem exists_course_read (hs : c :: s ≠ ['\\']) :
    ∃ g, Course (c :: s) g ∧ ∀ r, EndsToken r → read c (s ++ r) = g r := by
  have hread : ∀ r, EndsToken r → read c (s ++ r) =
      if startsNumber (c :: s) then readNumeric (c :: s ++ r)
      else if c == '-' && s.take 2 == ['-', '>'] then (.commentClose, (s ++ r).drop 2)
      else if startsIdent (c :: s) then readIdentLike (c :: s ++ r)
      else readMark c (s ++ r) := by
    intro r hr
    unfold read
    rw [← cons_append, startsNumber_append hr, take_two_append hr, hr.startsIdent_append hs]
  split at hread
  · obtain ⟨g, hg, hnumeric⟩ := hasCourse_readNumeric (c :: s)
    exact ⟨g, hg, fun r hr => (hread r hr).trans (hnumeric r hr)⟩
  split at hread
  · rename_i hclose
    rw [Bool.and_eq_true, beq_iff_eq, beq_iff_eq] at hclose
    obtain ⟨s, rfl⟩ : ∃ s', s = '-' :: '>' :: s' :=
      ⟨s.drop 2, by rw [← take_append_drop 2 s, hclose.2]; rfl⟩
    exact ⟨_, .ends .commentClose s, hread⟩
  split at hread
  · exact ⟨_, .identLike, hread⟩
  · obtain ⟨g, hg, hmark⟩ := hasCourse_readMark c s
    exact ⟨g, hg, fun r hr => (hread r hr).trans (hmark r hr)⟩

end Token

section

variable (hr : EndsToken r) (hr' : EndsPiece r')

include hr hr'

theorem readQuoted_exchange {quote : Char} (ht : m = [] → t.isFirm = true)
    (h : readQuoted quote (s ++ r) = (t, m ++ r)) : readQuoted quote (s ++ r') = (t, m ++ r') := by
  unfold readQuoted at h ⊢
  rcases hread : readString quote (s ++ r) with ⟨b, v, rest⟩
  rw [hread] at h
  obtain ⟨rfl, rfl⟩ := h
  rw [readString_exchange hr hr' (fun hb hm => ?_) hread]
  subst hb
  exact absurd (ht hm) (by simp [Token.isFirm])

/-- **A token that ends before `r` is read before `r'` too.** -/
theorem Token.read_exchange (hm : m ≠ ['\\']) (ht : m = [] → t.isFirm = true)
    (hfunction : ∀ name, t = .function name → m.dropWhile isSpace ≠ [])
    (h : Token.read c (s ++ r) = (t, m ++ r)) :
    (Token.read c (s ++ r')).1 = t ∧ Leaves m r' (Token.read c (s ++ r')).2 := by
  have hne : c :: s ≠ ['\\'] := by
    intro hcs
    obtain ⟨rfl, rfl⟩ := cons.inj hcs
    obtain ⟨rfl, rfl⟩ := Token.read_backslash hr h
    exact absurd (ht rfl) (by decide)
  obtain ⟨g, hg, hread⟩ := exists_course_read hne
  rw [hread r hr] at h
  rw [hread r' hr'.toEndsToken]
  cases hg <;> dsimp only at h ⊢
  case ends t₀ m₀ =>
    obtain ⟨rfl, rfl⟩ := mk_append_inj h
    exact ⟨rfl, .inl rfl⟩
  case name word u hu =>
    obtain ⟨rfl, hrest⟩ := Prod.mk.inj h
    obtain ⟨hname, hleaves⟩ := readName_exchange hr hr' hm (Prod.ext rfl hrest)
    exact ⟨congrArg word hname, hleaves⟩
  case backslash word t₀ hs =>
    exfalso
    split at h
    · rename_i hstart
      have hlt := length_readName_backslash_lt hr (by simpa [startsIdent] using hstart)
      rw [(Prod.mk.inj h).2, length_append] at hlt
      omega
    · exact hm (append_cancel_right (Prod.mk.inj h).2.symm)
  case identLike => exact readIdentLike_exchange hr hr' hm hfunction h
  case quoted hq u =>
    rw [readQuoted_exchange hr hr' ht h]
    exact ⟨rfl, .inl rfl⟩
  case comment u =>
    obtain ⟨rfl, hrest⟩ := Prod.mk.inj h
    rw [readSlash, readComment_exchange hr.ne_nil r' (Prod.ext rfl hrest)]
    exact ⟨rfl, .inl rfl⟩
  case space c u =>
    obtain ⟨rfl, hrest⟩ := Prod.mk.inj h
    have hm : m ≠ [] := fun hm => absurd (ht hm) (by simp [Token.isFirm])
    have hd : u.dropWhile isSpace ≠ [] := by
      intro hd
      rw [dropWhile_append, hd] at hrest
      have hlen := (dropWhile_suffix (l := r) isSpace).length_le
      have hpos := length_pos_iff.2 hm
      rw [isEmpty_nil, if_pos rfl] at hrest
      rw [hrest, length_append] at hlen
      omega
    have hempty : (u.dropWhile isSpace).isEmpty = false := by simpa using hd
    have htake : ∀ q, (u ++ q).takeWhile isSpace = u.takeWhile isSpace := by
      intro q
      rw [takeWhile_append, if_neg]
      intro hlen
      have := congrArg length (takeWhile_append_dropWhile (p := isSpace) (l := u))
      rw [length_append] at this
      exact hd (length_eq_zero_iff.1 (by omega))
    rw [dropWhile_append, hempty, if_neg Bool.false_ne_true, append_cancel_right_eq] at hrest
    rw [htake, htake, dropWhile_append, hempty, if_neg Bool.false_ne_true, hrest]
    exact ⟨rfl, .inl rfl⟩

end

end StyleBlocks
