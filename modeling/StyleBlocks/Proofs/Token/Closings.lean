import StyleBlocks.Proofs.Token.Exchange
import StyleBlocks.Proofs.Token.Spelling

/-!
# The ends of tokens

A string, a comment and an address end with the mark that closes them, unless the text ends there.
All other tokens end before an exclamation mark, unless a backslash stands right before it.
-/

namespace StyleBlocks

open List

/-! ## Strings, comments, addresses -/

variable {s rest : List Char} {t : Token}

theorem isSuffix_readString (quote : Char) (s : List Char) : (readString quote s).1 = false →
    (readString quote s).2.2 ≠ [] → quote :: (readString quote s).2.2 <:+ s := by
  fun_induction readString quote s with
  | case1 | case4 => exact fun _ hne => absurd rfl hne
  | case2 c s hc => exact fun _ _ => eq_of_beq hc ▸ suffix_refl _
  | case3 => exact fun hb => absurd hb Bool.noConfusion
  | case5 c s _ _ _ _ _ ih =>
    exact fun hb hne => (ih hb hne).trans ((dropSpace_suffix s).trans (suffix_cons ..))
  | case6 c s _ _ _ _ _ r ih =>
    exact fun hb hne => (ih hb hne).trans ((readEscape_suffix s).trans (suffix_cons ..))
  | case7 c s _ _ _ r ih => exact fun hb hne => (ih hb hne).trans (suffix_cons ..)

theorem readComment_eq_append {s v rest : List Char} (h : readComment s = (v, rest))
    (hne : rest ≠ []) : s = v ++ '*' :: '/' :: rest := by
  have hread : ∀ s, (readComment s).2 ≠ [] →
      s = (readComment s).1 ++ '*' :: '/' :: (readComment s).2 := by
    intro s
    fun_induction readComment s with
    | case1 s => exact fun _ => rfl
    | case2 c s _ r ih => exact fun hne => congrArg (c :: ·) (ih hne)
    | case3 => exact fun hne => absurd rfl hne
  have hs := hread s
  rw [h] at hs
  exact hs hne

theorem not_isInfix_readComment (s : List Char) : ¬ ['*', '/'] <:+: (readComment s).1 := by
  fun_induction readComment s with
  | case1 s | case3 => simp
  | case2 c s hc r ih =>
    rw [infix_cons_iff]
    rintro (hfirst | hlater)
    · obtain ⟨w, hw⟩ := hfirst
      have hrest : '/' :: w = (readComment s).1 := (List.cons.inj hw).2
      obtain rfl := (List.cons.inj hw).1
      cases s with
      | nil => cases hrest
      | cons d s =>
        by_cases hd : d = '*' ∧ s.head? = some '/'
        · obtain ⟨rfl, hhead⟩ := hd
          obtain ⟨s, rfl⟩ := head?_eq_some_iff.1 hhead
          cases hrest
        · rw [readComment_cons fun h₁ h₂ => hd ⟨h₁, h₂⟩] at hrest
          obtain rfl := (List.cons.inj hrest).1
          exact hc s rfl rfl
    · exact ih hlater

theorem isSuffix_readUrlBody (s : List Char) : (readUrlBody s).1.isSome = true →
    (readUrlBody s).2 ≠ [] → ')' :: (readUrlBody s).2 <:+ s := by
  fun_induction readUrlBody s with
  | case1 | case3 => exact fun _ hne => absurd rfl hne
  | case2 c s hc => exact fun _ _ => eq_of_beq hc ▸ suffix_refl _
  | case4 c s _ _ d t hd hclose =>
    intro _ _
    rw [← eq_of_beq hclose, ← hd]
    exact (dropWhile_suffix isSpace).trans (suffix_cons ..)
  | case5 | case6 | case7 => exact fun hb => absurd hb Bool.noConfusion
  | case8 c s _ _ _ _ _ r ih =>
    rw [Option.isSome_map]
    exact fun hb hne => (ih hb hne).trans ((readEscape_suffix s).trans (suffix_cons ..))
  | case9 c s _ _ _ _ r ih =>
    rw [Option.isSome_map]
    exact fun hb hne => (ih hb hne).trans (suffix_cons ..)

theorem isSuffix_of_readUrl (h : readUrl s = some (t, rest)) (hne : rest ≠ []) :
    ')' :: rest <:+ s := by
  refine .trans ?_ (dropWhile_suffix isSpace)
  rcases (readUrl_eq_some_iff (by rw [h]; simp)).1 h with ⟨v, hbody, -⟩ | ⟨rest₀, hbody, rfl, -⟩
  · have hsuffix := isSuffix_readUrlBody (s.dropWhile isSpace)
    rw [hbody] at hsuffix
    exact hsuffix rfl hne
  have hsuffix := readUrlBody_suffix (s.dropWhile isSpace)
  rw [hbody] at hsuffix
  refine .trans ?_ ((skipBadUrl_suffix rest₀).trans hsuffix)
  cases hskip : skipBadUrl rest₀ with
  | nil =>
    rw [hskip] at hne
    exact absurd rfl hne
  | cons c rest =>
    rw [skipBadUrl_eq_cons hskip]
    exact suffix_refl _

theorem isSuffix_of_readQuoted {quote : Char} (h : readQuoted quote s = (t, rest))
    (ht : ∀ v, t ≠ .badString v) (hne : rest ≠ []) : quote :: rest <:+ s := by
  have hsuffix := isSuffix_readString quote s
  unfold readQuoted at h
  rcases hread : readString quote s with ⟨_ | _, v, rest'⟩ <;> rw [hread] at h hsuffix
  · obtain rfl : rest' = rest := (Prod.mk.inj h).2
    exact hsuffix rfl hne
  · exact absurd (Prod.mk.inj h).1.symm (ht _)

theorem isSuffix_of_readSlash (h : readSlash ('*' :: s) = (t, rest)) (hne : rest ≠ []) :
    '/' :: rest <:+ s := by
  have hs : s = (readComment s).1 ++ '*' :: '/' :: rest :=
    readComment_eq_append (Prod.ext rfl (Prod.mk.inj h).2) hne
  exact ⟨(readComment s).1 ++ ['*'], by rw [append_assoc, singleton_append, ← hs]⟩

theorem readIdentLike_rest (h : readIdentLike s = (t, rest)) (hne : rest ≠ []) :
    (readName s = ((readName s).1, rest) ∧ rest.head? ≠ some '(' ∧
        t = .ident (String.ofList (readName s).1)) ∨
      (readName s).2 = '(' :: rest ∨ ')' :: rest <:+ (readName s).2 := by
  rcases hname : readName s with ⟨n, q⟩
  by_cases hparen : q.head? = some '('
  · right
    obtain ⟨q, rfl⟩ := head?_eq_some_iff.1 hparen
    rw [readIdentLike_of_paren hname] at h
    split at h
    · cases hurl : readUrl q with
      | none =>
        rw [hurl] at h
        exact .inl (by rw [← (Prod.mk.inj h).2])
      | some p =>
        rw [hurl, Option.getD_some] at h
        subst h
        exact .inr ((isSuffix_of_readUrl hurl hne).trans (suffix_cons ..))
    · exact .inl (by rw [← (Prod.mk.inj h).2])
  · rw [readIdentLike_of_head? hname hparen, Prod.mk.injEq] at h
    obtain ⟨rfl, rfl⟩ := h
    exact .inl ⟨rfl, hparen, rfl⟩

/-! ## Exclamation marks -/

theorem mark_exclamation : Mark '!' :=
  ⟨by decide, by decide, by decide, by decide, by decide⟩

theorem readName_append_exclamation (u y : List Char) : u.getLast? = some '\\' ∨
    ∃ m, (readName (u ++ '!' :: y)).2 = m ++ '!' :: y := by
  by_cases hlen : (readName (u ++ '!' :: y)).2.length ≤ y.length
  · obtain ⟨u', -, rfl, -⟩ := readName_append_mark mark_exclamation u y hlen
    exact .inl getLast?_concat
  · obtain ⟨m, -, hm⟩ := exists_append_of_suffix (readName_suffix (u ++ '!' :: y))
      (by rw [length_cons]; omega)
    exact .inr ⟨m, hm⟩

section

variable {u y : List Char} (hlen : rest.length ≤ y.length)

include hlen

theorem ne_append_of_length_le (m : List Char) : rest ≠ m ++ '!' :: y := by
  rintro rfl
  rw [length_append, length_cons] at hlen
  omega

/-- What closes a token that reaches behind an exclamation mark stands there too. -/
theorem isSuffix_of_reach {a : Char} (ha : a ≠ '!') (h : a :: rest <:+ u ++ '!' :: y) :
    a :: rest <:+ y := by
  have hsuffix : a :: rest <:+ '!' :: y := suffix_of_suffix_length_le h
    (suffix_append u ('!' :: y)) (by rw [length_cons, length_cons]; omega)
  rcases suffix_cons_iff.1 hsuffix with heq | hsuffix
  · exact absurd (cons.inj heq).1 ha
  · exact hsuffix

theorem getLast?_of_readName_reach (h : (readName (u ++ '!' :: y)).2 = rest) :
    u.getLast? = some '\\' := by
  rcases readName_append_exclamation u y with hlast | ⟨m, hm⟩
  · exact hlast
  · rw [h] at hm
    exact absurd hm (ne_append_of_length_le hlen m)

/-- **A token that reaches behind an exclamation mark has a backslash right before it**, if nothing
behind the mark closes a string, a comment or an address. -/
theorem Token.getLast?_of_reach (hend : EndsToken ('!' :: y))
    (hclose : ∀ a ∈ ['"', '\'', '/', ')'], ¬ a :: rest <:+ y) (hne : rest ≠ [])
    (hstring : ∀ v, t ≠ .badString v) {c : Char} (h : Token.read c (u ++ '!' :: y) = (t, rest)) :
    (c :: u).getLast? = some '\\' := by
  by_cases hb : c :: u = ['\\']
  · rw [hb]
    rfl
  have hreach : ∀ {a w}, a ∈ ['"', '\'', '/', ')'] → ¬ a :: rest <:+ w ++ '!' :: y := by
    refine fun ha hsuffix => hclose _ ha (isSuffix_of_reach hlen ?_ hsuffix)
    rintro rfl
    exact absurd ha (by decide)
  obtain ⟨g, hg, hread⟩ := Token.exists_course_read hb
  rw [hread _ hend] at h
  cases hg <;> dsimp only at h
  case ends t₀ m => exact absurd (Prod.mk.inj h).2.symm (ne_append_of_length_le hlen m)
  case name hu =>
    exact getLast?_of_isSuffix hu (getLast?_of_readName_reach hlen (Prod.mk.inj h).2)
  case backslash word t₀ hs => exact hs
  case identLike =>
    rcases readIdentLike_rest h hne with ⟨hname, -, -⟩ | hname | hurl
    · exact getLast?_of_readName_reach hlen (congrArg Prod.snd hname)
    · have hsuffix := readName_suffix (c :: u ++ '!' :: y)
      rw [hname] at hsuffix
      exact getLast?_of_readName_reach (isSuffix_of_reach hlen (by decide) hsuffix).length_le hname
    · exact absurd (hurl.trans (readName_suffix _)) (hreach (by simp))
  case quoted hq w =>
    exact absurd (isSuffix_of_readQuoted h hstring hne) (hreach (mem_append_left ['/', ')'] hq))
  case comment w => exact absurd (isSuffix_of_readSlash h hne) (hreach (by simp))
  case space c w =>
    obtain ⟨-, hdrop⟩ := takeWhile_append_of_head (p := isSpace) (r := '!' :: y)
      (by simp [isSpace, isNewline]) w
    rw [Prod.mk.injEq, hdrop] at h
    exact absurd h.2.symm (ne_append_of_length_le hlen _)

end

end StyleBlocks
