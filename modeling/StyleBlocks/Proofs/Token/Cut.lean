import Mathlib.Data.List.TakeWhile
import StyleBlocks.Proofs.Token.Exchange
import StyleBlocks.Proofs.Token.Spelling

/-!
# The tokens of a text, without their locations
-/

namespace StyleBlocks

open List

variable {l : Lexeme} {ls : List Lexeme} {s : List Char}

theorem Token.read_of_isSpace {c : Char} (h : isSpace c = true) (s : List Char) :
    Token.read c s = (.space (String.ofList (c :: s.takeWhile isSpace)), s.dropWhile isSpace) := by
  simp only [isSpace, isNewline, Bool.or_eq_true, beq_iff_eq] at h
  rcases h with (rfl | rfl) | (rfl | rfl) | rfl <;> rfl

namespace Lexeme

def unplaced (l : Lexeme) : Lexeme :=
  ⟨l.token, l.text, .nowhere⟩

theorem map_unplaced_list (location location' : Location) (s : List Char) :
    (list location s).map unplaced = (list location' s).map unplaced := by
  fun_induction list location s generalizing location' with
  | case1 => rw [list]
  | case2 location c s rest text ih =>
    rw [list, map_cons, map_cons, ih]
    rfl

/-- The tokens of a text, without their locations. -/
def cut (s : List Char) : List Lexeme :=
  (list .start s).map unplaced

theorem cut_nil : cut [] = [] := by
  rw [cut, list, map_nil]

theorem cut_cons {c : Char} {w rest : List Char} {t : Token} (h : Token.read c s = (t, rest))
    (hw : w ++ rest = c :: s) : cut (c :: s) = ⟨t, w, .nowhere⟩ :: cut rest := by
  rw [cut, list_cons h hw, map_cons, map_unplaced_list _ .start]
  rfl

theorem flatMap_text_cut (s : List Char) : (cut s).flatMap text = s := by
  rw [cut, flatMap_map]
  exact flatMap_text_list .start s

theorem exists_of_cut_eq_cons (h : cut s = l :: ls) :
    ∃ c w rest, s = c :: w ++ rest ∧ Token.read c (w ++ rest) = (l.token, rest) ∧
      l = ⟨l.token, c :: w, .nowhere⟩ ∧ cut rest = ls := by
  cases s with
  | nil =>
    rw [cut_nil] at h
    cases h
  | cons c s =>
    obtain ⟨w, hw⟩ := Token.read_suffix c s
    have hcut := cut_cons (c := c) (s := s) (w := c :: w) (Prod.eta _).symm (by rw [cons_append, hw])
    rw [hcut, List.cons.injEq] at h
    obtain ⟨rfl, rfl⟩ := h
    refine ⟨c, w, (Token.read c s).2, ?_, ?_, rfl, rfl⟩
    · rw [cons_append, hw]
    · rw [hw]

theorem exists_of_cut_eq_append {init : List Lexeme} (h : cut s = init ++ l :: ls) :
    ∃ c w rest, s = init.flatMap text ++ (c :: w ++ rest) ∧
      Token.read c (w ++ rest) = (l.token, rest) ∧ l = ⟨l.token, c :: w, .nowhere⟩ ∧
        cut rest = ls := by
  induction init generalizing s with
  | nil => exact exists_of_cut_eq_cons h
  | cons l' init ih =>
    obtain ⟨c', w', rest', rfl, -, hl', hrest'⟩ := exists_of_cut_eq_cons h
    obtain ⟨c, w, rest, rfl, hread, hl, hrest⟩ := ih hrest'
    refine ⟨c, w, rest, ?_, hread, hl, hrest⟩
    rw [flatMap_cons, hl', append_assoc]

theorem text_ne_nil_of_mem_cut (h : l ∈ cut s) : l.text ≠ [] := by
  obtain ⟨l, hl, rfl⟩ := mem_map.1 h
  exact text_ne_nil (l := l) hl

theorem isFirm_of_text (h : l ∈ cut s) (hl : ∀ c ∈ l.text, isSpace c = true) :
    l.token.isFirm = false := by
  obtain ⟨l, hmem, rfl⟩ := mem_map.1 h
  obtain ⟨c, t, -, htoken, htext⟩ := exists_read_of_mem hmem
  obtain ⟨d, w, hw⟩ := exists_cons_of_ne_nil (text_ne_nil hmem)
  rw [hw, cons_append, cons.injEq] at htext
  have hspace : isSpace c = true := by
    rw [← htext.1]
    apply hl
    change d ∈ l.text
    rw [hw]
    exact mem_cons_self
  change l.token.isFirm = false
  rw [htoken, Token.read_of_isSpace hspace]
  rfl

theorem flatMap_text_eq_nil (hls : ∀ l ∈ ls, l ∈ cut s) (h : ls.flatMap text = []) : ls = [] := by
  cases ls with
  | nil => rfl
  | cons l ls =>
    rw [flatMap_cons, append_eq_nil_iff] at h
    exact absurd h.1 (text_ne_nil_of_mem_cut (hls l (by simp)))

theorem dropWhile_isSpace_ne_nil (hls : ∀ l ∈ ls, l ∈ cut s) (hl : ls.getLast? = some l)
    (hfirm : l.token.isFirm = true) : (ls.flatMap text).dropWhile isSpace ≠ [] := by
  intro hspaces
  rw [dropWhile_eq_nil_iff] at hspaces
  have hmem : l ∈ ls := mem_of_getLast? hl
  have hnot := isFirm_of_text (hls l hmem) fun c hc =>
    hspaces c (mem_flatMap.2 ⟨l, hmem, hc⟩)
  rw [hfirm] at hnot
  cases hnot

theorem ne_backslash_of_cut {m r : List Char} (hr : EndsToken r) (h : cut (m ++ r) = ls ++ cut r)
    (hm : m = ls.flatMap text) (hlast : ∀ l, ls.getLast? = some l → l.token.isFirm = true) :
    m ≠ ['\\'] := by
  rintro rfl
  cases ls with
  | nil => cases hm
  | cons l ls =>
    have hmem : ∀ l' ∈ ls, l' ∈ cut (['\\'] ++ r) := by
      intro l' hl'
      rw [h]
      simp [hl']
    obtain ⟨c, w, rest, heq, hread, hl, -⟩ := exists_of_cut_eq_cons h
    have htext : l.text = c :: w := by rw [hl]
    rw [flatMap_cons, htext, cons_append, List.cons.injEq] at hm
    obtain ⟨rfl, hw⟩ := hm
    obtain ⟨rfl, hnil⟩ := append_eq_nil_iff.1 hw.symm
    obtain rfl := flatMap_text_eq_nil hmem hnil
    obtain rfl : r = rest := (List.cons.inj heq).2
    have hdelim := (Token.read_backslash (m := []) hr hread).2
    exact absurd (hlast l rfl) (by rw [hdelim]; decide)

/-- **The tokens of a text that end before `r` are read before `r'` too**, but for a space that the
last one takes along if it ends in an escape. -/
theorem cut_exchange {r r' x : List Char} (hr : EndsToken r) (hr' : EndsPiece r')
    (h : cut (x ++ r) = ls ++ cut r)
    (hlast : ∀ l, ls.getLast? = some l → l.token.isFirm = true) :
    cut (x ++ r') = ls ++ cut r' ∨
      ∃ init last w, r' = ' ' :: w ∧ ls = init ++ [last] ∧
        cut (x ++ r') = init ++ ⟨last.token, last.text ++ [' '], .nowhere⟩ :: cut w := by
  have hx : x = ls.flatMap text := by
    have := flatMap_text_cut (x ++ r)
    rw [h, flatMap_append, flatMap_text_cut] at this
    exact (append_cancel_right this).symm
  induction ls generalizing x with
  | nil =>
    subst hx
    exact .inl rfl
  | cons l ls ih =>
    have hmem : ∀ l' ∈ ls, l' ∈ cut (x ++ r) := by
      intro l' hl'
      rw [h]
      simp [hl']
    obtain ⟨c, w, rest, heq, hread, hl, hrest⟩ := exists_of_cut_eq_cons h
    obtain ⟨m, hm⟩ : ∃ m, m = ls.flatMap text := ⟨_, rfl⟩
    have htext : l.text = c :: w := by rw [hl]
    rw [flatMap_cons, htext, ← hm] at hx
    obtain rfl : rest = m ++ r := by
      rw [hx, append_assoc] at heq
      exact (append_cancel_left heq).symm
    have hlast' : ∀ l', ls.getLast? = some l' → l'.token.isFirm = true := by
      intro l' hl'
      apply hlast
      rw [getLast?_cons, hl']
      rfl
    have hbackslash : m ≠ ['\\'] := ne_backslash_of_cut hr hrest hm hlast'
    have hfunction : ∀ name, l.token = .function name → m.dropWhile isSpace ≠ [] := by
      intro name hname
      cases hend : ls.getLast? with
      | none =>
        have hfirm := hlast l (by rw [getLast?_cons, hend]; rfl)
        rw [hname] at hfirm
        cases hfirm
      | some l' =>
        rw [hm]
        exact dropWhile_isSpace_ne_nil hmem hend (hlast' l' hend)
    have hfirm : m = [] → l.token.isFirm = true := by
      intro hnil
      obtain rfl := flatMap_text_eq_nil hmem (hm.symm.trans hnil)
      exact hlast l rfl
    obtain ⟨htoken, hleaves⟩ := Token.read_exchange hr hr' (s := w ++ m) hbackslash hfirm hfunction
      (by rw [append_assoc]; exact hread)
    have hx' : x ++ r' = c :: (w ++ m ++ r') := by
      rw [hx, cons_append, cons_append]
    rcases hleaves with hleft | ⟨hnil, hright⟩
    · have hcut := cut_cons (Prod.ext htoken hleft) (w := c :: w) (by simp)
      rw [hx', hcut, ← hl]
      rcases ih hrest hlast' hm with hih | ⟨init, last, w', rfl, rfl, hih⟩
      · exact .inl (by rw [hih, cons_append])
      · exact .inr ⟨l :: init, last, w', rfl, rfl, by rw [hih, cons_append]⟩
    -- nothing is left before the space, so this is the last token
    subst hnil
    obtain rfl := flatMap_text_eq_nil hmem hm.symm
    refine .inr ⟨[], l, _, hright, rfl, ?_⟩
    have hcut := cut_cons (Prod.ext htoken rfl) (w := c :: w ++ [' ']) (by
      rw [append_assoc, singleton_append, ← hright]
      simp)
    rw [hx', hcut, htext]
    rfl

end Lexeme

end StyleBlocks
