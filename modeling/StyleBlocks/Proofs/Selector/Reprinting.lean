import Mathlib.Data.List.Chain
import StyleBlocks.Proofs.Property
import StyleBlocks.Proofs.Selector.RoundTrip
import StyleBlocks.Proofs.Stylesheet.Runs

/-!
# Selectors that are printed and read again

Without escapes a name is written with the characters that it has, and it ends where the next token
does not go on with it.  So the selectors of a text without backslashes and comments can be printed,
and whether they are read back depends on their arguments alone.

Main result: `isClosedArgument_of_mem`.
-/

namespace StyleBlocks

open List

variable {c : Char} {name : String} {s w : List Char} {x : Simple} {part : List Component}

/-! ## Names without escapes -/

theorem isNameChar_of_readName (hs : '\\' ∉ s) : ∀ c ∈ (readName s).1, isNameChar c = true := by
  have hreplacement : isNameChar replacementChar = true := by decide
  fun_induction readName s with
  | case1 | case2 | case6 => simp
  | case3 c s hc => exact absurd (eq_of_beq hc ▸ mem_cons_self) hs
  | case4 c s _ _ r ih =>
    exact forall_mem_cons.2 ⟨hreplacement, ih fun h => hs (mem_cons_of_mem c h)⟩
  | case5 c s _ _ hc r ih =>
    exact forall_mem_cons.2 ⟨hc, ih fun h => hs (mem_cons_of_mem c h)⟩

theorem endsName_readName (hs : '\\' ∉ s) : EndsName (readName s).2 := by
  fun_induction readName s with
  | case1 => exact endsName_nil
  | case2 c s hc | case3 c s hc => exact absurd (eq_of_beq hc ▸ mem_cons_self) hs
  | case4 c s _ _ r ih | case5 c s _ _ hc r ih => exact ih fun h => hs (mem_cons_of_mem c h)
  | case6 c s hb hn hc => exact endsName_cons (by simpa using hc) (by simpa using hb) (by simpa using hn)

theorem toLower_cases (c : Char) : c.toLower = c ∨ c.toLower.isAlpha = true := by
  unfold Char.toLower
  split
  · rename_i h
    right
    unfold Char.isAlpha
    rw [Bool.or_eq_true]
    right
    unfold Char.isLower
    simp [UInt32.le_iff_toNat_le] at h ⊢
    omega
  · exact .inl rfl

theorem isNameStart_toLower (h : isNameStart c = true) : isNameStart c.toLower = true := by
  rcases toLower_cases c with hc | hc
  · rw [hc]
    exact h
  · rw [isNameStart, hc]
    rfl

theorem isNameChar_toLower (h : isNameChar c = true) : isNameChar c.toLower = true := by
  rcases toLower_cases c with hc | hc
  · rw [hc]
    exact h
  · rw [isNameChar, Char.isAlphanum, hc]
    rfl

theorem isIdentifier_lowercase (h : isIdentifier name = true) :
    isIdentifier (lowercase name) = true := by
  rw [isIdentifier_iff] at h ⊢
  obtain ⟨hstart, hall⟩ := h
  rw [lowercase, String.toList_map]
  refine ⟨?_, fun c hc => ?_⟩
  · cases hs : name.toList with
    | nil =>
      rw [hs] at hstart
      cases hstart
    | cons c s =>
      rw [hs] at hstart hall
      rw [map_cons]
      rcases head_of_startsIdent hstart with rfl | rfl | hc
      · -- behind the first hyphen stands another one, or the start of a name
        cases s with
        | nil => cases hstart
        | cons d s =>
          have hd := ne_backslash_of_isNameChar (hall d (by simp))
          simp only [startsIdent, Bool.or_eq_true, beq_iff_eq, hd, or_false] at hstart
          have hhyphen : Char.toLower '-' = '-' := by decide
          rw [hhyphen, map_cons]
          simp only [startsIdent, Bool.or_eq_true, beq_iff_eq]
          rcases hstart with hstart | rfl
          · exact .inl (.inl (isNameStart_toLower hstart))
          · exact .inl (.inr hhyphen)
      · exact absurd rfl (ne_backslash_of_isNameChar (hall _ mem_cons_self))
      · exact startsIdent_of_isNameStart (isNameStart_toLower hc) _
  · obtain ⟨d, hd, rfl⟩ := mem_map.1 hc
    exact isNameChar_toLower (hall d hd)

theorem startsIdent_of_endsName (h : EndsName s) : startsIdent s = false := by
  cases hstart : startsIdent s with
  | false => rfl
  | true =>
    exfalso
    cases s with
    | nil => cases hstart
    | cons c s =>
      obtain ⟨hchar, hbackslash, hnul⟩ := h c rfl
      rcases head_of_startsIdent hstart with rfl | rfl | hc
      · cases hchar
      · exact hbackslash rfl
      · simp only [isNameStart, isNameChar, Char.isAlphanum, Bool.or_eq_true, Bool.or_eq_false_iff,
          beq_iff_eq, decide_eq_true_eq, decide_eq_false_iff_not] at hc hchar
        grind

/-! ## Tokens -/

/-- The name of an identifier, a function or a hash. -/
def Token.name? : Token → Option String
  | .ident name | .function name | .idHash name => some name
  | _ => none

theorem name?_readNumeric (s : List Char) : (readNumeric s).1.name? = none := by
  unfold readNumeric
  split
  split
  · rfl
  · split <;> rfl

theorem readName_of_readHash (h : (readHash s).1.name? = some name) :
    startsIdent s = true ∧ name.toList = (readName s).1 ∧ (readHash s).2 = (readName s).2 := by
  unfold readHash at h ⊢
  dsimp only at h ⊢
  split at h
  · rename_i hstart
    cases h
    rw [if_pos hstart]
    exact ⟨hstart, String.toList_ofList, rfl⟩
  · split at h <;> cases h

theorem readHash_of_readMark (h : (readMark c s).1.name? = some name) :
    readMark c s = readHash s := by
  unfold readMark at h ⊢
  split at h
  · cases h
  rename_i hspace
  split at h
  case h_1 | h_2 =>
    unfold readQuoted at h
    dsimp only at h
    split at h <;> cases h
  case h_3 => rfl
  case h_4 => unfold readAt at h; split at h <;> cases h
  case h_5 => unfold readSlash at h; split at h <;> cases h
  case h_6 => unfold readAngle at h; split at h <;> cases h
  case h_7 | h_8 | h_9 | h_10 | h_11 =>
    unfold readPair at h
    split at h
    · split at h <;> cases h
    · cases h
  all_goals cases h

theorem readName_of_readIdentLike (h : (readIdentLike s).1.name? = some name) :
    name.toList = (readName s).1 ∧
      ((∀ n, (readIdentLike s).1 ≠ .function n) → (readIdentLike s).2 = (readName s).2) := by
  generalize hread : readIdentLike s = token at h ⊢
  obtain ⟨t, rest⟩ := token
  cases t with
  | ident n =>
    cases h
    rw [readIdentLike_eq_ident hread]
    exact ⟨rfl, fun _ => rfl⟩
  | function n =>
    cases h
    exact ⟨toList_of_readIdentLike_eq_function hread, fun hne => absurd rfl (hne _)⟩
  | idHash n =>
    have hword := isWord_readIdentLike s
    rw [hread] at hword
    cases hword
  | _ => cases h

theorem Token.exists_readName (h : (Token.read c s).1.name? = some name) :
    ∃ u, u <:+ c :: s ∧ startsIdent u = true ∧
      name.toList = (readName u).1 ∧
      ((∀ n, (Token.read c s).1 ≠ .function n) → (Token.read c s).2 = (readName u).2) := by
  unfold Token.read at h ⊢
  split at h
  · rw [name?_readNumeric] at h
    cases h
  rename_i hnumber
  rw [if_neg hnumber]
  split at h
  · cases h
  rename_i hclose
  rw [if_neg hclose]
  split at h
  · rename_i hstart
    rw [if_pos hstart]
    exact ⟨c :: s, suffix_refl _, hstart, readName_of_readIdentLike h⟩
  rename_i hstart
  rw [if_neg hstart]
  have hhash := readHash_of_readMark h
  rw [hhash] at h ⊢
  obtain ⟨hstart, hname, hrest⟩ := readName_of_readHash h
  exact ⟨s, suffix_cons c s, hstart, hname, fun _ => hrest⟩

/-- The names of a token without escapes are identifiers, and the other texts are free of zeros. -/
structure Token.IsUnescaped (t : Token) : Prop where
  name : ∀ name, t.name? = some name → isIdentifier name = true
  text : ∀ text, t = .string text → NulFree text

theorem Token.isUnescaped_read (hs : '\\' ∉ c :: s) : (Token.read c s).1.IsUnescaped := by
  refine ⟨fun name hname => ?_, fun text htext => Token.isNulFree_read c s text (.inr htext)⟩
  obtain ⟨u, hu, hstart, hchars, -⟩ := Token.exists_readName hname
  have hu := fun h => hs (hu.subset h)
  rw [isIdentifier_iff, hchars]
  exact ⟨startsIdent_readName hstart hu, isNameChar_of_readName hu⟩

theorem Lexeme.isUnescaped_of_mem_cut (hs : '\\' ∉ s) {l : Lexeme} (h : l ∈ Lexeme.cut s) :
    l.token.IsUnescaped := by
  obtain ⟨init, ls, hsplit⟩ := append_of_mem h
  obtain ⟨c, w, rest, htext, hread, -, -⟩ := Lexeme.exists_of_cut_eq_append hsplit
  have hunescaped := Token.isUnescaped_read (c := c) (s := w ++ rest) fun hmem => hs (by
    rw [htext]
    exact mem_append_right _ hmem)
  rwa [hread] at hunescaped

def Token.isName : Token → Bool
  | .ident _ | .idHash _ => true
  | _ => false

/-- **No identifier stands right behind a name.** -/
theorem Lexeme.ne_ident_of_isName (hs : '\\' ∉ s) {l m : Lexeme} (h : [l, m] <:+: Lexeme.cut s)
    (hl : l.token.isName = true) (name : String) : m.token ≠ .ident name := by
  intro hm
  obtain ⟨init, ls, hsplit⟩ := h
  rw [append_assoc] at hsplit
  obtain ⟨c, w, rest, htext, hread, -, hrest⟩ := Lexeme.exists_of_cut_eq_append hsplit.symm
  obtain ⟨n, hn⟩ : ∃ n, (Token.read c (w ++ rest)).1.name? = some n := by
    rw [hread]
    generalize l.token = t at hl ⊢
    cases t with
    | ident n | idHash n => exact ⟨n, rfl⟩
    | _ => cases hl
  obtain ⟨u, hu, -, -, hend⟩ := Token.exists_readName hn
  rw [hread] at hend
  have hne : ∀ n, l.token ≠ .function n := by
    intro n heq
    rw [heq] at hl
    cases hl
  have hus : '\\' ∉ u := fun hmem => hs (by
    rw [htext]
    exact mem_append_right _ (hu.subset hmem))
  have hends : EndsName rest := by
    have hname : rest = (readName u).2 := hend hne
    rw [hname]
    exact endsName_readName hus
  obtain ⟨c', w', rest', rfl, hread', -, -⟩ := Lexeme.exists_of_cut_eq_cons hrest
  rw [hm] at hread'
  have hstart := (readName_of_read_eq_ident hread').1
  rw [← cons_append, startsIdent_of_endsName hends] at hstart
  cases hstart

/-! ## Pseudo-classes and pseudo-elements -/

def Simple.pseudoName? : Simple → Option String
  | .pseudoClass name _ | .pseudoElement name _ => some name
  | _ => none

theorem isOneColonElement_lowercase (name : String) :
    isOneColonElement (lowercase name) = isOneColonElement name := by
  rw [isOneColonElement, isOneColonElement, lowercase_lowercase]

theorem Component.Names.isTrimmed {c : Component} {argument : Option String}
    (h : c.Names name argument) : ∀ text, argument = some text → IsTrimmed text.toList := by
  intro text htext
  subst htext
  obtain ⟨-, rfl⟩ := argumentOf_of_names h
  cases c with
  | leaf l => exact isTrimmed_nil
  | block l b body stop close =>
    rw [argumentOf, String.toList_ofList]
    exact isTrimmed_trim _

theorem Simple.IsWritten.isWellNamed_of_pseudoName? (h : Simple.IsWritten part x)
    (hname : x.pseudoName? = some name) (hidentifier : isIdentifier name = true) :
    x.IsWellNamed := by
  cases h with
  | hasAttribute | tag | universal | id | className => cases hname
  | pseudoClass _ hd hone =>
    cases hname
    exact ⟨hidentifier, lowercase_lowercase _,
      fun hnone => (isOneColonElement_lowercase _).trans (hone hnone), hd.isTrimmed⟩
  | oneColon =>
    cases hname
    exact ⟨hidentifier, lowercase_lowercase _, by simp⟩
  | pseudoElement _ _ he =>
    cases hname
    exact ⟨hidentifier, lowercase_lowercase _, he.isTrimmed⟩

/-! ## Conditions without escapes -/

section

variable (hpart : ∀ c ∈ part, c.token.IsUnescaped)

include hpart

theorem isIdentifier_of_mem {c : Component} (hc : c ∈ part) (hname : c.token = .ident name) :
    isIdentifier name = true :=
  (hpart c hc).name name (by rw [hname]; rfl)

theorem Attribute.NameIsWritten.isIdentifier {space : Option String}
    (h : Attribute.NameIsWritten part space name) :
    (∀ text, space = some text → text = "" ∨ text = "*" ∨ isIdentifier text = true) ∧
      isIdentifier name = true := by
  cases h with
  | plain hc => exact ⟨by simp, isIdentifier_of_mem hpart (by simp) hc⟩
  | inSpace hc _ hd =>
    have hspace := isIdentifier_of_mem hpart (by simp) hc
    exact ⟨by simp [hspace], isIdentifier_of_mem hpart (by simp) hd⟩
  | inAnySpace _ _ _ hd | inNoSpace _ hd => exact ⟨by simp, isIdentifier_of_mem hpart (by simp) hd⟩

omit hpart in
theorem nulFree_of_attributeValue? {t : Token} {value : String} (ht : t.IsUnescaped)
    (hv : attributeValue? t = some value) : NulFree value := by
  cases t with
  | ident =>
    cases hv
    exact nulFree_of_isIdentifier (ht.name _ rfl)
  | string =>
    cases hv
    exact ht.text _ rfl
  | _ => cases hv

theorem Attribute.IsWritten.isWellNamed {a : Attribute} (h : Attribute.IsWritten part a) :
    a.IsWellNamed := by
  cases h with
  | bare _ hname _ =>
    obtain ⟨hspace, hname⟩ := hname.isIdentifier fun c hc => hpart c (by simp [hc])
    exact ⟨hspace, hname, nofun, rfl⟩
  | test _ hname _ _ _ hv =>
    obtain ⟨hspace, hname⟩ := hname.isIdentifier fun c hc => hpart c (by simp [hc])
    refine ⟨hspace, hname, fun t ht => ?_, rfl⟩
    cases ht
    exact nulFree_of_attributeValue? (hpart _ (by simp)) hv

end

/-- **Conditions that are written with tokens without escapes are well named.** -/
theorem Simple.IsWritten.isWellNamed (h : Simple.IsWritten part x)
    (hpart : ∀ l ∈ Component.flatOf part, l.token.IsUnescaped) : x.IsWellNamed := by
  have hmem : ∀ d ∈ part, d.token.IsUnescaped :=
    fun d hd => hpart d.lexeme (Component.lexeme_mem_flatOf hd)
  have hnames {d : Component} {name : String} {argument : Option String} (hd : d.Names name argument)
      (hdpart : d ∈ part) : isIdentifier (lowercase name) = true := by
    apply isIdentifier_lowercase
    apply (hmem d hdpart).name
    cases hd with
    | plain htoken => rw [htoken]; rfl
    | function htoken => rw [htoken]; rfl
  have hwritten := h
  cases h with
  | hasAttribute ha =>
    refine ha.isWellNamed fun d hd => hpart d.lexeme ?_
    rw [Component.flatOf, Component.flat]
    simp [Component.lexeme_mem_flatOf (mem_filter.1 hd).1]
  | tag hc => exact isIdentifier_of_mem hmem (by simp) hc
  | universal => trivial
  | @id c _ hc =>
    have hname := (hmem c (by simp)).name _ (by rw [hc]; rfl)
    exact ⟨nulFree_of_isIdentifier hname, toList_ne_nil_of_isIdentifier hname⟩
  | className _ hd =>
    have hname := isIdentifier_of_mem hmem (by simp) hd
    exact ⟨nulFree_of_isIdentifier hname, toList_ne_nil_of_isIdentifier hname⟩
  | pseudoClass _ hd => exact hwritten.isWellNamed_of_pseudoName? rfl (hnames hd (by simp))
  | oneColon _ hd => exact hwritten.isWellNamed_of_pseudoName? rfl (hnames (.plain hd) (by simp))
  | pseudoElement _ _ he => exact hwritten.isWellNamed_of_pseudoName? rfl (hnames he (by simp))

/-! ## Tags behind names -/

theorem flatOf_componentsOf (w : List Char) : Component.flatOf (componentsOf w) = Lexeme.cut w :=
  Component.flatOf_group .nowhere fun _ hl => Lexeme.text_ne_nil_of_mem_cut hl

theorem Component.ne_ident_of_isName (hw : '\\' ∉ w) {c d : Component}
    (h : [c, d] <:+: componentsOf w) (hc : c.token.isName = true) (name : String) :
    d.token ≠ .ident name := by
  have hopens : c.token.opens = none := by
    generalize c.token = t at hc
    cases t with
    | ident | idHash => rfl
    | _ => cases hc
  have hgrouped := Component.isGrouped_group .nowhere _ c (h.subset mem_cons_self)
  obtain ⟨l, rfl⟩ := hgrouped.exists_leaf rfl hopens
  obtain ⟨before, behind, hcs⟩ := h
  obtain ⟨ls, hls⟩ := d.exists_flat_eq
  refine Lexeme.ne_ident_of_isName hw ?_ hc name
  refine ⟨Component.flatOf before, ls ++ Component.flatOf behind, ?_⟩
  rw [← flatOf_componentsOf, ← hcs, Component.flatOf_append, Component.flatOf_append,
    Component.flatOf, Component.flatOf_singleton, Component.flat, hls]
  simp [Component.lexeme]

theorem Simple.IsWritten.exists_isName (h : Simple.IsWritten part x) (hx : x.endsInName = true) :
    ∃ before d, part = before ++ [d] ∧ d.token.isName = true := by
  have hplain {d : Component} {name : String} {argument : Option String} (hd : d.Names name argument)
      (hargument : argument = none) : d.token.isName = true := by
    cases hd with
    | plain htoken => rw [htoken]; rfl
    | function htoken => cases hargument
  have hnone {name : String} {argument : Option String}
      (h : (Simple.pseudoClass name argument).endsInName = true ∨
        (Simple.pseudoElement name argument).endsInName = true) : argument = none := by
    cases argument with
    | none => rfl
    | some text => rcases h with h | h <;> cases h
  cases h with
  | hasAttribute | universal => cases hx
  | tag hc | id hc => exact ⟨[], _, rfl, by rw [hc]; rfl⟩
  | className _ hd | oneColon _ hd => exact ⟨[_], _, rfl, by rw [hd]; rfl⟩
  | pseudoClass _ hd => exact ⟨[_], _, rfl, hplain hd (hnone (.inl hx))⟩
  | pseudoElement _ _ he => exact ⟨[_, _], _, rfl, hplain he (hnone (.inr hx))⟩

theorem Compound.AreWritten.apart (hw : '\\' ∉ w) {xs : List Simple}
    (h : Compound.AreWritten part xs) (hpart : part <:+: componentsOf w) :
    xs.IsChain fun x y => x.endsInName = true → ∀ name, y ≠ .tag name := by
  induction h with
  | nil => exact .nil
  | @cons part rest x xs hx hxs ih =>
    have hrest := ih ((suffix_append part rest).isInfix.trans hpart)
    cases hxs with
    | nil => exact .singleton x
    | @cons q rest y ys hy _ =>
      refine .cons_cons (fun hname name => ?_) hrest
      rintro rfl
      obtain ⟨before, d, rfl, hd⟩ := hx.exists_isName hname
      cases hy with
      | tag hc =>
        refine Component.ne_ident_of_isName hw (IsInfix.trans ?_ hpart) hd name hc
        exact ⟨before, rest, by simp⟩

/-! ## Texts without backslashes and comments -/

theorem Selector.ne_nil_of_parseList (h : Selector.parseList text = .ok ss) : ss ≠ [] := by
  have hitems := Selector.parseList_eq_ok_iff.1 h
  obtain ⟨part, location, parts, hsplit⟩ :=
    exists_splitCommas .nowhere (componentsOf text.toList)
  rintro rfl
  have hlength := (mapM_eq_ok_iff.1 hitems).length_eq
  rw [hsplit] at hlength
  cases hlength

theorem Compound.IsWritten.isWellNamed (hw : '\\' ∉ w) {c : Compound}
    (h : Compound.IsWritten part c) (hpart : part <:+: uncommented (componentsOf w)) :
    ∀ x ∈ c, x.IsWellNamed := by
  intro x hx
  obtain ⟨q, hq, hwritten⟩ := h.conditions.exists_of_mem hx
  refine hwritten.isWellNamed fun l hl => Lexeme.isUnescaped_of_mem_cut hw ?_
  obtain ⟨d, hd, hld⟩ := Component.mem_flatOf_iff.1 hl
  have hmem : d ∈ componentsOf w := (mem_filter.1 (hpart.subset (hq.subset hd))).1
  exact flatOf_componentsOf w ▸ Component.mem_flatOf_iff.2 ⟨d, hmem, hld⟩

section

variable {text : String} {ss : List Selector} (hbackslash : '\\' ∉ text.toList)
  (hcomment : ∀ l ∈ Lexeme.cut text.toList, l.token.isComment = false)
  (h : Selector.parseList text = .ok ss)

include hbackslash hcomment h

/-- **The selectors of a text without backslashes and comments keep apart when printed.** -/
theorem Selector.isPrintable_of_parseList : ∀ s ∈ ss, s.IsPrintable := by
  intro s hs c hc
  obtain ⟨part, hpart, hwritten⟩ := Selector.exists_isWritten_of_parseList h hs hc
  have hcomments : uncommented (componentsOf text.toList) = componentsOf text.toList := by
    refine filter_eq_self.2 fun e he => ?_
    have hmem : e.lexeme ∈ Lexeme.cut text.toList :=
      flatOf_componentsOf _ ▸ Component.lexeme_mem_flatOf he
    exact congrArg (! ·) (hcomment e.lexeme hmem)
  exact ⟨hwritten.ne_nil, hwritten.isWellNamed hbackslash hpart, hwritten.elements,
    hwritten.conditions.apart hbackslash (hcomments ▸ hpart)⟩

end

/-! ## Closed arguments -/

theorem readUrl_of_read_eq_function {rest : List Char} (h : Token.read c s = (.function name, rest))
    (hurl : name.toList.map Char.toLower = "url".toList) : readUrl rest = none := by
  have hread := (readIdentLike_of_read h rfl).2
  have hname := toList_of_readIdentLike_eq_function hread
  rcases hq : readName (c :: s) with ⟨n, q⟩
  rw [hq] at hname
  subst hname
  by_cases hparen : q.head? = some '('
  · obtain ⟨q, rfl⟩ := head?_eq_some_iff.1 hparen
    rw [readIdentLike_of_paren hq, if_pos (by simp [hurl])] at hread
    cases hr : readUrl q with
    | none =>
      rw [hr, Option.getD_none] at hread
      rwa [(Prod.mk.inj hread).2] at hr
    | some p =>
      rw [hr, Option.getD_some] at hread
      subst hread
      rcases isUrl_of_readUrl hr with ⟨v, hv⟩ | ⟨v, hv⟩ <;> cases hv
  · rw [readIdentLike_of_head? hq hparen] at hread
    cases hread

theorem readUrl_trim {r r' : List Char} (h : readUrl (s ++ ')' :: r) = none) :
    readUrl (trim s ++ ')' :: r') = none := by
  have hdrop : ∀ (u v : List Char), (u ++ ')' :: v).dropWhile isSpace
      = u.dropWhile isSpace ++ ')' :: v :=
    fun u v => (takeWhile_append_of_head (p := isSpace) (by simp; decide) u).2
  rw [readUrl_eq_none_iff, hdrop] at h ⊢
  obtain ⟨q, hq, hhead⟩ : ∃ q, (q = '"' ∨ q = '\'') ∧
      (s.dropWhile isSpace ++ ')' :: r).head? = some q := by
    rcases h with h | h
    · exact ⟨_, .inl rfl, h⟩
    · exact ⟨_, .inr rfl, h⟩
  have hblank : isBlank q = false ∧ isSpace q = false ∧ q ≠ ')' := by
    rcases hq with rfl | rfl <;> decide
  have hs : (s.dropWhile isBlank).head? = some q := by
    cases hcs : s.dropWhile isSpace with
    | nil =>
      rw [hcs] at hhead
      cases hhead
      exact absurd rfl hblank.2.2
    | cons a t =>
      rw [hcs] at hhead
      cases hhead
      -- the spaces in front are blanks, and the quote is none
      have hsplit := List.takeWhile_append_dropWhile (p := isSpace) (l := s)
      rw [hcs] at hsplit
      rw [← hsplit, List.dropWhile_append_of_pos, List.dropWhile_cons_of_neg (by simp [hblank.1])]
      · rfl
      · exact fun b hb => isBlank_of_isSpace (List.all_eq_true.1 List.all_takeWhile b hb)
  obtain ⟨t, ht⟩ := List.head?_eq_some_iff.1 (head?_trim hs)
  rw [ht, List.dropWhile_cons_of_neg (by simp [hblank.2.1])]
  rcases hq with rfl | rfl
  · exact .inl rfl
  · exact .inr rfl

theorem exists_stretch_of_mem (htidy : ∀ l ∈ Lexeme.cut w, l.isTidy = true) {l : Lexeme}
    {body : List Component} {stop : Location} {close : List Char}
    (hc : .block l .round body stop close ∈ componentsOf w) (hclose : close ≠ [])
    (hbody : Component.AllFit (some .round) body) : l ∈ Lexeme.cut w ∧
      ∃ a v r, Token.read a (v ++ (Component.textOf body ++ ')' :: r))
          = (l.token, Component.textOf body ++ ')' :: r) ∧
        Component.textOf body ⊆ w ∧ Stretch (some .round) body (')' :: r) := by
  obtain ⟨before, behind, hall⟩ := List.append_of_mem hc
  have hcut := flatOf_componentsOf w
  rw [hall, Component.flatOf_append, Component.flatOf, Component.flat, Component.closing,
    if_neg hclose, List.cons_append, List.append_assoc, List.singleton_append] at hcut
  obtain ⟨a, v, rest, hw, hread, -, hrest⟩ := Lexeme.exists_of_cut_eq_append hcut.symm
  obtain ⟨r, hr, hcut'⟩ := exists_of_cut_eq_closer hrest rfl
  rw [Component.flatMap_text_flatOf] at hr
  subst hr
  refine ⟨hcut ▸ by simp, a, v, r, hread, ?_, hcut', hbody, fun l' hl' => htidy l' ?_⟩
  · intro d hd
    rw [hw]
    simp [hd]
  · rw [← hcut]
    simp [hl']

theorem Inner.cut_round {outer : Option Bracket} {cs inner : List Component}
    (h : Inner outer cs inner) : Lexeme.cut (Component.textOf inner ++ [')'])
      = Component.flatOf inner ++ Lexeme.cut [')'] := by
  rcases Lexeme.cut_exchange (endsToken_semicolon [])
    (endsPiece_cons stop_round (by decide) (by decide) []) h.reads h.firm with
    hcut | ⟨_, _, _, heq, -⟩
  · exact hcut
  · cases heq

/-- **In a tidy text without backslashes, the argument between two brackets is closed.** -/
theorem isClosedArgument_of_mem (hbackslash : '\\' ∉ w)
    (htidy : ∀ l ∈ Lexeme.cut w, l.isTidy = true) {c : Component} (hc : c ∈ componentsOf w)
    (hfits : c.Fits none) (hname : c.token = .function name) :
    isClosedArgument (lowercase name) (argumentOf c) = true := by
  obtain ⟨l, body, stop, close, rfl, htoken, hclose, hbody⟩ := hfits.exists_block hname
  obtain ⟨hl, a, v, r, hread, hsubset, hstretch⟩ := exists_stretch_of_mem htidy hc hclose hbody
  obtain ⟨inner, hinner⟩ := hstretch.exists_inner (endsToken_cons stop_round (by decide) r)
    fun hlast => hbackslash (hsubset (trim_subset _ (List.mem_of_getLast? hlast)))
  have hidentifier : isIdentifier (lowercase name) = true := by
    apply isIdentifier_lowercase
    apply (Lexeme.isUnescaped_of_mem_cut hbackslash hl).name
    rw [htoken]
    rfl
  rw [isClosedArgument_iff hidentifier, argumentOf, String.toList_ofList]
  refine ⟨fun hurl => ?_, inner, hinner.fits, hinner.trim ▸ hinner.cut_round⟩
  rw [htoken] at hread
  apply readUrl_trim (readUrl_of_read_eq_function hread ?_)
  rwa [← String.toList_map, ← lowercase, lowercase_lowercase, lowercase, String.toList_map] at hurl

/-- **In a tidy text without backslashes whose brackets are closed, all arguments are closed.** -/
theorem Selector.isClosed_of_parseList {text : String} {ss : List Selector}
    (hbackslash : '\\' ∉ text.toList) (htidy : ∀ l ∈ Lexeme.cut text.toList, l.isTidy = true)
    (hbrackets : Component.openAtEnd (Lexeme.cut text.toList) = [])
    (h : Selector.parseList text = .ok ss) : ∀ s ∈ ss, s.isClosed = true := by
  have hfits := Component.fits_group .nowhere
    (fun l hl => Lexeme.text_ne_nil_of_mem_cut (s := text.toList) hl) hbrackets
  have hclosed {c : Component} {name : String} {argument : Option String}
      (hc : c ∈ componentsOf text.toList) (hnames : c.Names name argument) :
      (Simple.pseudoClass (lowercase name) argument).isClosed = true ∧
        (Simple.pseudoElement (lowercase name) argument).isClosed = true := by
    cases hnames with
    | plain => exact ⟨rfl, rfl⟩
    | function htoken =>
      have hargument := isClosedArgument_of_mem hbackslash htidy hc
        (Component.allFit_iff.1 hfits c hc) htoken
      exact ⟨hargument, hargument⟩
  intro s hs
  rw [Selector.isClosed, List.all_eq_true]
  intro c hc
  rw [List.all_eq_true]
  intro x hx
  obtain ⟨part, hpart, hwritten⟩ := Selector.exists_isWritten_of_parseList h hs hc
  obtain ⟨q, hq, hx⟩ := hwritten.conditions.exists_of_mem hx
  have hmem : q ⊆ componentsOf text.toList :=
    fun e he => (List.mem_filter.1 (hpart.subset (hq.subset he))).1
  cases hx with
  | hasAttribute | tag | universal | id | className | oneColon => rfl
  | pseudoClass _ hd => exact (hclosed (hmem (by simp)) hd).1
  | pseudoElement _ _ he => exact (hclosed (hmem (by simp)) he).2

/-- **Selectors that are read from a text without backslashes and comments, and printed, are read
back if and only if their arguments are closed.**  They are, if all brackets of the text are closed
and no token is a broken string or has other blanks than spaces at its ends. -/
theorem Selector.parseList_render_parseList {text : String} {ss : List Selector}
    (hbackslash : '\\' ∉ text.toList)
    (hcomment : ∀ l ∈ Lexeme.cut text.toList, l.token.isComment = false)
    (h : Selector.parseList text = .ok ss) :
    (Selector.parseList (renderSelectors ss) = .ok ss ↔ ∀ s ∈ ss, s.isClosed = true) ∧
      (Component.openAtEnd (Lexeme.cut text.toList) = [] →
        (∀ l ∈ Lexeme.cut text.toList, l.isTidy = true) →
          Selector.parseList (renderSelectors ss) = .ok ss) := by
  have hiff := Selector.parseList_render_iff (Selector.ne_nil_of_parseList h)
    (Selector.isPrintable_of_parseList hbackslash hcomment h)
  exact ⟨hiff, fun hbrackets htidy =>
    hiff.2 (Selector.isClosed_of_parseList hbackslash htidy hbrackets h)⟩

/-- Conditions of all kinds, with spaces, capitals, strings and brackets in their arguments. -/
def manySelectorsText : String :=
  "*A[ b|c ~= 'd\"e' I ]:NOT( .f , [g='h]'] )>I.j#k:After,\n\t[|l] + [m]::Slotted( (n) )~*"

theorem manySelectorsText_parseList_render : '\\' ∉ manySelectorsText.toList ∧
    (∀ l ∈ Lexeme.cut manySelectorsText.toList, l.token.isComment = false) ∧
      ∃ ss, Selector.parseList manySelectorsText = .ok ss ∧
        Selector.parseList (renderSelectors ss) = .ok ss := by
  have hbackslash : '\\' ∉ manySelectorsText.toList := by decide +kernel
  have hcomment : ∀ l ∈ Lexeme.cut manySelectorsText.toList, l.token.isComment = false := by
    decide +kernel
  have hparse : (Selector.parseList manySelectorsText).toOption.isSome = true := by decide +kernel
  refine ⟨hbackslash, hcomment, ?_⟩
  cases hss : Selector.parseList manySelectorsText with
  | error e =>
    rw [hss] at hparse
    cases hparse
  | ok ss =>
    exact ⟨ss, rfl, (Selector.parseList_render_parseList hbackslash hcomment hss).2
      (by decide +kernel) (by decide +kernel)⟩

/-- Without the blank before it, the name of the inner function is that of an address. -/
def blankBeforeNameText : String :=
  ":is(\u00a0url(a()))"

theorem blankBeforeNameText_parseList_render_ne : '\\' ∉ blankBeforeNameText.toList ∧
    (∀ l ∈ Lexeme.cut blankBeforeNameText.toList, l.token.isComment = false) ∧
    Component.openAtEnd (Lexeme.cut blankBeforeNameText.toList) = [] ∧
    (Selector.parseList blankBeforeNameText).toOption
      = some [⟨[], [.pseudoClass "is" (some "url(a())")]⟩] ∧
    (Selector.parseList (renderSelectors [⟨[], [.pseudoClass "is" (some "url(a())")]⟩])).toOption
      = none := by
  decide +kernel

end StyleBlocks
