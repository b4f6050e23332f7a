import StyleBlocks.Proofs.Stylesheet.Runs

/-!
# Important values

The exclamation mark that makes a value important is looked for in the characters of the value, not
among its tokens.  It is a token all the same, unless a backslash stands before it.
-/

namespace StyleBlocks

open Component List

variable {b r w : List Char} {cs : List Component}

/-! ## What stands behind the exclamation mark -/

theorem splitPriority_cases (raw : List Char) : splitPriority raw = (raw, false) ∨
    ∃ w b, raw = w ++ '!' :: b ∧ isImportant b = true ∧ splitPriority raw = (trimEnd w, true) := by
  by_cases hmem : '!' ∈ raw
  · obtain ⟨b, w, hsplit, hb⟩ := eq_append_cons_of_mem (mem_reverse.2 hmem)
    obtain rfl : raw = w.reverse ++ '!' :: b.reverse := by
      rw [← reverse_reverse raw, hsplit, reverse_append, reverse_cons,
        append_assoc, singleton_append]
    rw [splitPriority_append fun hmem => hb (mem_reverse.1 hmem)]
    cases himportant : isImportant b.reverse with
    | false => exact .inl rfl
    | true => exact .inr ⟨_, _, rfl, himportant, rfl⟩
  · exact .inl (splitPriority_of_not_mem hmem)

theorem not_mem_of_isImportant (h : isImportant b = true) :
    ∀ a ∈ ['"', '\'', '/', ')', ']', '-', '\\'], a ∉ b := by
  intro a ha hmem
  simp only [List.mem_cons, List.not_mem_nil, or_false] at ha
  have hblank : isBlank a = false := by
    rcases ha with rfl | rfl | rfl | rfl | rfl | rfl | rfl <;> decide
  have hletter : a.toLower ∉ "important".toList := by
    rcases ha with rfl | rfl | rfl | rfl | rfl | rfl | rfl <;> decide
  apply hletter
  rw [← eq_of_beq h]
  exact mem_map_of_mem (mem_trim_of_mem hmem hblank)

theorem endsToken_of_isImportant (h : isImportant b = true) : EndsToken ('!' :: (b ++ [';'])) := by
  refine ⟨by simp, fun a ha => ?_, fun htake => ?_⟩
  · cases ha
    exact stop_of_mem (by simp)
  cases b with
  | nil => cases htake
  | cons a b =>
    obtain rfl : a = '-' := by simpa using htake
    exact not_mem_of_isImportant h '-' (by simp) mem_cons_self

theorem getLast?_of_isImportant {raw : List Char} (hraw : raw = w ++ '!' :: b)
    (h : isImportant b = true) : raw.getLast? ≠ some '\\' := by
  intro hlast
  rw [hraw, getLast?_append_of_ne_nil _ (by simp)] at hlast
  rcases mem_cons.1 (mem_of_getLast? hlast) with heq | hmem
  · cases heq
  · exact not_mem_of_isImportant h '\\' (by simp) hmem

/-! ## The mark among the components -/

theorem Component.exists_of_textOf_eq {a : Char} (h : textOf cs = w ++ a :: b) :
    ∃ before c behind u v, cs = before ++ c :: behind ∧
      w = textOf before ++ u ∧ c.text = u ++ a :: v ∧ b = v ++ textOf behind := by
  induction cs generalizing w with
  | nil => exact absurd h (by simp [textOf])
  | cons c cs ih =>
    rcases append_eq_append_iff.1 h with ⟨w', rfl, hrest⟩ | ⟨v, hc, hrest⟩
    · obtain ⟨before, d, behind, u, v, rfl, rfl, hd, hb⟩ := ih hrest
      exact ⟨c :: before, d, behind, u, v, rfl, by rw [textOf, append_assoc], hd, hb⟩
    cases v with
    | nil =>
      obtain ⟨before, d, behind, u, v, rfl, hw, hd, hb⟩ := ih (w := []) hrest.symm
      rw [append_nil] at hc
      exact ⟨c :: before, d, behind, u, v, rfl,
        by rw [textOf, append_assoc, ← hw, append_nil, hc], hd, hb⟩
    | cons d v =>
      obtain ⟨rfl, hb⟩ := List.cons.inj hrest
      exact ⟨[], c, cs, w, v, rfl, rfl, hc, hb⟩

namespace Run

variable {outer : Option Bracket} {before behind : List Component} {c : Component}

theorem getLast?_text_block {l : Lexeme} {b : Bracket} {body : List Component} {stop : Location}
    {close : List Char} (h : Run outer (before ++ .block l b body stop close :: behind) r) :
    (block l b body stop close).text.getLast? = some b.closing := by
  have hfits := allFit_iff.1 h.fits (.block l b body stop close) (by simp)
  have hmem : (⟨.closer b, close, stop⟩ : Lexeme)
      ∈ flatOf (before ++ .block l b body stop close :: behind) := by
    rw [flatOf_append, flatOf, flat, closing, if_neg hfits.2.1]
    simp
  have hclose : close = [b.closing] := Lexeme.text_of_closer (h.mem_cut hmem) rfl
  rw [text, hclose, getLast?_concat]

/-- **The exclamation mark of an important value is a token of its own**, unless a backslash stands
right before it. -/
theorem eq_nil_of_isImportant (h : Run outer (before ++ c :: behind) [';']) {u v : List Char}
    (hc : c.text = u ++ '!' :: v) (himportant : isImportant (v ++ textOf behind) = true)
    (hlast : (textOf before ++ u).getLast? ≠ some '\\') : u = [] ∧ v = [] := by
  have hmarks := not_mem_of_isImportant himportant
  cases c with
  | block l b body stop close =>
    exfalso
    have hclose := h.getLast?_text_block
    have hcurly := h.curly (.block l b body stop close) (by simp)
    have hv : b.closing ∈ v := by
      rw [hc, getLast?_append_of_ne_nil _ (by simp)] at hclose
      rcases mem_cons.1 (mem_of_getLast? hclose) with heq | hmem
      · cases b <;> cases heq
      · exact hmem
    refine hmarks b.closing ?_ (mem_append_left _ hv)
    cases b with
    | curly => cases hcurly
    | _ => decide
  | leaf l =>
    have hcut := h.reads
    rw [flatOf_append, flatOf, flat, append_assoc, append_assoc, singleton_append] at hcut
    obtain ⟨a, w, rest, htext, hread, hlexeme, -⟩ := Lexeme.exists_of_cut_eq_append hcut
    have hl : l.text = a :: w := by rw [hlexeme]
    have hc : a :: w = u ++ '!' :: v := by
      rw [← hl, ← hc, text]
    obtain rfl : rest = textOf behind ++ [';'] := by
      rw [textOf_append, textOf, text, hl, append_assoc, append_assoc, flatMap_text_flatOf] at htext
      exact (append_cancel_left (append_cancel_left htext)).symm
    cases u with
    | nil =>
      obtain ⟨rfl, rfl⟩ := List.cons.inj hc
      have hdelim : Token.read '!' (w ++ (textOf behind ++ [';']))
          = (.delim '!', w ++ (textOf behind ++ [';'])) := rfl
      rw [hdelim, Prod.mk.injEq] at hread
      exact ⟨rfl, self_eq_append_left.1 hread.2.symm⟩
    | cons d u =>
      rw [cons_append, List.cons.injEq] at hc
      obtain ⟨rfl, rfl⟩ := hc
      exfalso
      have hend := endsToken_of_isImportant himportant
      rw [append_assoc] at hread hend
      have hreach := Token.getLast?_of_reach (by simp) hend (fun m hm hsuffix => ?_) (by simp)
        (fun v hv => ?_) hread
      · rw [getLast?_append_of_ne_nil _ (by simp)] at hlast
        exact hlast hreach
      · -- what would close the token stands behind the mark
        obtain ⟨v', hv'⟩ := hsuffix
        have hmem : m ∈ v := by
          rw [← singleton_append, ← append_assoc] at hv'
          rw [← append_cancel_right hv']
          simp
        exact hmarks m (mem_append_left [']', '-', '\\'] hm) (mem_append_left _ hmem)
      · have htidy := h.tidy l (by simp [flatOf_append, flatOf, flat])
        exact (Lexeme.isTidy_iff.1 htidy).1 v hv

/-- **The value of an important declaration is read back**, unless it ends with a backslash. -/
theorem exists_fragment_trimEnd (h : Run outer cs [';'])
    (htrimmed : IsTrimmed (textOf cs)) (htext : textOf cs = w ++ '!' :: b)
    (himportant : isImportant b = true) (hback : (trimEnd w).getLast? ≠ some '\\') :
    ∃ inner, Fragment outer (trimEnd w) inner ∧ IsTrimmed (trimEnd w) ∧
      ∀ c ∈ inner, ∃ d ∈ cs, d.token = c.token := by
  have htrim : trimEnd w = trim w := by
    apply trimEnd_eq_trim
    intro a ha
    apply htrimmed.head a
    rw [htext, head?_append, ha]
    rfl
  obtain ⟨before, c, behind, u, v, rfl, rfl, hc, rfl⟩ := exists_of_textOf_eq htext
  have hbackslash : (textOf before ++ u).getLast? ≠ some '\\' := by
    intro hw
    have htrim := @trimEnd_append (textOf before ++ u) [] (fun a ha => ?_) (by simp)
    · rw [append_nil] at htrim
      rw [htrim] at hback
      exact hback hw
    · rw [hw] at ha
      cases ha
      decide
  obtain ⟨rfl, rfl⟩ := h.eq_nil_of_isImportant hc himportant hbackslash
  rw [append_nil] at htrim hback ⊢
  have hend : EndsToken (textOf (c :: behind) ++ [';']) := by
    rw [textOf, hc]
    exact endsToken_of_isImportant himportant
  rw [htrim] at hback ⊢
  obtain ⟨inner, hinner⟩ := h.left.exists_inner hend hback
  rw [hinner.trim]
  refine ⟨inner, h.left.fragment hinner, hinner.isTrimmed, fun c hc => ?_⟩
  obtain ⟨d, hd, htoken⟩ := hinner.mem c hc
  exact ⟨d, mem_append_left _ hd, htoken⟩

theorem readsValue {vs : List Component} (h : Run (some .curly) vs r) (hr : EndsToken r)
    (hsemicolon : ∀ c ∈ vs, c.isSemicolon = false)
    (hback : (valueOf vs).1.toList.getLast? ≠ some '\\') :
    ReadsValue (valueOf vs).1.toList ∧ ((valueOf vs).2 = false →
      splitPriority (valueOf vs).1.toList = ((valueOf vs).1.toList, false)) := by
  have hvalue : valueOf vs = (String.ofList (splitPriority (trim (textOf vs))).1,
      (splitPriority (trim (textOf vs))).2) := rfl
  rw [hvalue] at hback ⊢
  rw [String.toList_ofList] at hback ⊢
  rcases splitPriority_cases (trim (textOf vs)) with hsplit | ⟨w, b, htext, himportant, hsplit⟩
  · rw [hsplit] at hback ⊢
    obtain ⟨inner, hinner⟩ := h.exists_inner hr hback
    rw [hinner.trim] at hsplit ⊢
    exact ⟨fun _ => ⟨inner, h.fragment hinner, hinner.isTrimmed,
      isSemicolon_of_token hsemicolon hinner.mem⟩, fun _ => hsplit⟩
  rw [hsplit] at hback ⊢
  obtain ⟨inner, hinner⟩ := h.exists_inner hr (getLast?_of_isImportant htext himportant)
  rw [hinner.trim] at htext
  obtain ⟨inner', hfragment, htrimmed, hmem⟩ :=
    (h.of_inner hinner).exists_fragment_trimEnd hinner.isTrimmed htext himportant hback
  exact ⟨fun _ => ⟨inner', hfragment, htrimmed,
    isSemicolon_of_token (isSemicolon_of_token hsemicolon hinner.mem) hmem⟩, nofun⟩

end Run

end StyleBlocks
