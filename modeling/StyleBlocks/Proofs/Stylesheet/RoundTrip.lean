import Mathlib.Data.List.Infix
import StyleBlocks.Proofs.Stylesheet.Statements
import StyleBlocks.Proofs.Token.Trailing

/-!
# Reading what was printed

Main result: `Stylesheet.parse_render`.
-/

namespace StyleBlocks

open Component

variable {c : Component} {s : List Char}

/-! ## Texts in canonical form -/

/-- A text that stands in a stylesheet between other texts: no blank stands at its ends and no
backslash and no comment in it, its tokens are whole, its brackets are closed, and no semicolon and
no curly bracket stands outside all brackets. -/
structure IsPlainText (s : List Char) : Prop where
  trimmed : trim s = s
  backslash : '\\' ∉ s
  comment : ∀ l ∈ Lexeme.cut s, l.token.isComment = false
  whole : Lexeme.cut (s ++ [';']) = Lexeme.cut s ++ Lexeme.cut [';']
  closed : Component.openAtEnd (Lexeme.cut s) = []
  outside : ∀ c ∈ Component.group .nowhere (Lexeme.cut s),
    c.token ≠ .semicolon ∧ c.token ≠ .opener .curly ∧ c.token ≠ .closer .curly

instance IsPlainText.decidable (s : List Char) : Decidable (IsPlainText s) :=
  decidable_of_iff (trim s = s ∧ '\\' ∉ s ∧ (∀ l ∈ Lexeme.cut s, l.token.isComment = false) ∧
    Lexeme.cut (s ++ [';']) = Lexeme.cut s ++ Lexeme.cut [';'] ∧
    Component.openAtEnd (Lexeme.cut s) = [] ∧
    ∀ c ∈ Component.group .nowhere (Lexeme.cut s),
      c.token ≠ .semicolon ∧ c.token ≠ .opener .curly ∧ c.token ≠ .closer .curly)
    ⟨fun h => ⟨h.1, h.2.1, h.2.2.1, h.2.2.2.1, h.2.2.2.2.1, h.2.2.2.2.2⟩,
      fun h => ⟨h.trimmed, h.backslash, h.comment, h.whole, h.closed, h.outside⟩⟩

theorem Component.Fits.of_token (h : c.Fits none) (hc : c.token ≠ .closer .curly) (top : Bool) :
    c.Fits (levelBracket top) := by
  cases top with
  | true => exact h
  | false =>
    cases c with
    | leaf l =>
      rw [Fits] at h ⊢
      refine ⟨h.1, fun b hb hcloses => hc ?_⟩
      cases hb
      exact Token.eq_closer hcloses
    | block l b body stop close =>
      rw [Fits] at h ⊢
      exact h

namespace IsPlainText

theorem isTrimmed (h : IsPlainText s) : IsTrimmed s :=
  trim_eq_self_iff.1 h.trimmed

theorem flatOf_group (s : List Char) : flatOf (group .nowhere (Lexeme.cut s)) = Lexeme.cut s :=
  Component.flatOf_group .nowhere fun _ hl => Lexeme.text_ne_nil_of_mem_cut hl

theorem fits (h : IsPlainText s) : AllFit none (group .nowhere (Lexeme.cut s)) :=
  fits_group .nowhere (fun _ hl => Lexeme.text_ne_nil_of_mem_cut hl) h.closed

theorem isSemicolon (h : IsPlainText s) :
    ∀ c ∈ group .nowhere (Lexeme.cut s), c.isSemicolon = false :=
  fun c hc => beq_eq_false_iff_ne.2 (h.outside c hc).1

theorem fragment (h : IsPlainText s) (top : Bool) :
    Fragment (levelBracket top) s (group .nowhere (Lexeme.cut s)) := by
  have hfits := h.fits
  refine ⟨?_, ?_, fun l hl => ?_, fun c hc => ?_⟩
  · rw [flatOf_group, h.whole]
  · rw [allFit_iff] at hfits ⊢
    exact fun c hc => (hfits c hc).of_token (h.outside c hc).2.2 top
  · have hopens := opens_of_getLast?_flatOf hfits hl
    rw [flatOf_group] at hl
    refine Lexeme.isFirm_of_getLast? (by decide) h.whole hl hopens ?_
    exact fun c hc => isSpace_of_not_isBlank (h.isTrimmed.last c hc)
  rw [allFit_iff] at hfits
  cases c with
  | leaf l => rfl
  | block l b body stop close =>
    have hc' := hfits _ hc
    cases b with
    | curly => exact absurd (Token.eq_opener_curly hc'.1) (h.outside _ hc).2.1
    | _ => rfl

theorem isComment (h : IsPlainText s) (hc : c ∈ group .nowhere (Lexeme.cut s)) :
    c.token.isComment = false := by
  have hmem := lexeme_mem_flatOf hc
  rw [flatOf_group] at hmem
  exact h.comment _ hmem

theorem isFiller_of_getLast? (h : IsPlainText s)
    (hc : (group .nowhere (Lexeme.cut s)).getLast? = some c) : c.isFiller = false := by
  have hcomment := h.isComment (List.mem_of_getLast? hc)
  have hspace := (h.fragment true).getLast?_ne_space hc
  rw [isFiller]
  cases htoken : c.token with
  | space v => exact absurd htoken (hspace v)
  | comment v =>
    rw [htoken] at hcomment
    cases hcomment
  | _ => rfl

end IsPlainText

/-! ## Stylesheets in canonical form -/

def startsWithAtKeyword (s : List Char) : Bool :=
  (Lexeme.cut s).head?.any fun l => l.token matches .atKeyword _

def endsInPriority : List Char → Bool
  | [] => false
  | c :: s => (c == '!' && isImportant s) || endsInPriority s

mutual

/-- Whether a node has the canonical form, at the root of a stylesheet or inside a body. -/
def Node.isCanonical (top : Bool) : Node → Bool
  | .rule head body =>
    decide (IsPlainText head.selector.toList) && head.selector != "" &&
      !startsWithAtKeyword head.selector.toList && areCanonical body
  | .group head body =>
    isIdentifier head.name && decide (IsPlainText head.params.toList) && areCanonical body
  | .statement head => isIdentifier head.name && decide (IsPlainText head.params.toList)
  | .declaration d =>
    !top && isIdentifier d.property && decide (IsPlainText d.value.toList) &&
      (d.important || !endsInPriority d.value.toList)
  | .comment text _ => !decide (['*', '/'] <:+: text.toList)

def areCanonical : List Node → Bool
  | [] => true
  | node :: nodes => node.isCanonical false && areCanonical nodes

end

def Stylesheet.isCanonical (sheet : Stylesheet) : Bool :=
  sheet.nodes.all (·.isCanonical true)

theorem endsInPriority_append {w b : List Char} (h : isImportant b = true) :
    endsInPriority (w ++ '!' :: b) = true := by
  induction w with
  | nil =>
    rw [List.nil_append, endsInPriority, h]
    rfl
  | cons c w ih => rw [List.cons_append, endsInPriority, ih, Bool.or_true]

theorem splitPriority_of_endsInPriority (h : endsInPriority s = false) :
    splitPriority s = (s, false) := by
  by_cases hmem : '!' ∈ s
  · -- only the last exclamation mark counts
    obtain ⟨b, w, hsplit, hb⟩ := List.eq_append_cons_of_mem (List.mem_reverse.2 hmem)
    obtain rfl : s = w.reverse ++ '!' :: b.reverse := by
      rw [← List.reverse_reverse s, hsplit, List.reverse_append, List.reverse_cons,
        List.append_assoc, List.singleton_append]
    rw [splitPriority_append fun hmem => hb (List.mem_reverse.1 hmem), if_neg]
    intro himportant
    rw [endsInPriority_append himportant] at h
    cases h
  · exact splitPriority_of_not_mem hmem

namespace IsPlainText

theorem readsSelector (h : IsPlainText s) (hne : s ≠ []) (hat : startsWithAtKeyword s = false)
    (top : Bool) : ReadsSelector top s := by
  have hfragment := h.fragment top
  refine ⟨_, hfragment, h.isTrimmed, hne, ?_, fun c hc => h.isFiller_of_getLast? hc,
    fun _ => h.isSemicolon⟩
  obtain ⟨c, cs, hcs⟩ := List.exists_cons_of_ne_nil (hfragment.ne_nil hne)
  have hmem : c ∈ group .nowhere (Lexeme.cut s) := by
    rw [hcs]
    exact List.mem_cons_self
  refine ⟨c, cs, hcs, ?_⟩
  have hcomment := h.isComment hmem
  have hhead : (Lexeme.cut s).head? = some c.lexeme := by
    obtain ⟨ls, hls⟩ := c.exists_flat_eq
    rw [← flatOf_group s, hcs, flatOf, hls]
    rfl
  cases htoken : c.token with
  | space v => exact absurd htoken (hfragment.head_ne_space h.isTrimmed hcs v)
  | semicolon => exact absurd htoken (h.outside c hmem).1
  | comment v =>
    rw [htoken] at hcomment
    cases hcomment
  | atKeyword name =>
    have htoken : c.lexeme.token = .atKeyword name := htoken
    rw [startsWithAtKeyword, hhead, Option.any_some, htoken] at hat
    cases hat
  | _ => rfl

theorem readsParams (h : IsPlainText s) (top : Bool) : ReadsParams top s :=
  fun _ => ⟨_, h.fragment top, h.isTrimmed, h.isSemicolon, fun _ hc => h.isFiller_of_getLast? hc⟩

theorem readsValue (h : IsPlainText s) : ReadsValue s :=
  fun _ => ⟨_, h.fragment false, h.isTrimmed, h.isSemicolon⟩

end IsPlainText

mutual

theorem Node.isReadable_of_isCanonical {top : Bool} :
    ∀ {node : Node}, node.isCanonical top = true → node.IsReadable top
  | .rule head body => fun h => by
    rw [Node.isCanonical, Bool.and_eq_true, Bool.and_eq_true, Bool.and_eq_true, decide_eq_true_eq,
      bne_iff_ne, Bool.not_eq_true'] at h
    obtain ⟨⟨⟨hplain, hne⟩, hat⟩, hbody⟩ := h
    rw [Node.IsReadable]
    exact ⟨hplain.readsSelector (fun h => hne (String.toList_eq_nil_iff.1 h)) hat top,
      areReadable_of_areCanonical hbody⟩
  | .group head body => fun h => by
    rw [Node.isCanonical, Bool.and_eq_true, Bool.and_eq_true, decide_eq_true_eq] at h
    rw [Node.IsReadable]
    exact ⟨h.1.1, h.1.2.readsParams top, areReadable_of_areCanonical h.2⟩
  | .statement head => fun h => by
    rw [Node.isCanonical, Bool.and_eq_true, decide_eq_true_eq] at h
    rw [Node.IsReadable]
    exact ⟨h.1, h.2.readsParams top⟩
  | .declaration d => fun h => by
    rw [Node.isCanonical, Bool.and_eq_true, Bool.and_eq_true, Bool.and_eq_true, decide_eq_true_eq,
      Bool.not_eq_true', Bool.or_eq_true, Bool.not_eq_true'] at h
    obtain ⟨⟨⟨htop, hname⟩, hplain⟩, hpriority⟩ := h
    rw [Node.IsReadable]
    refine ⟨htop, hname, hplain.readsValue, fun himportant => ?_⟩
    rw [himportant] at hpriority
    exact splitPriority_of_endsInPriority (hpriority.resolve_left Bool.false_ne_true)
  | .comment text location => fun h => by
    rw [Node.isCanonical, Bool.not_eq_true', decide_eq_false_iff_not] at h
    rw [Node.IsReadable]
    exact h

theorem areReadable_of_areCanonical : ∀ {nodes : List Node}, areCanonical nodes = true →
    AreReadable nodes
  | [] => fun _ => by
    rw [AreReadable]
    trivial
  | node :: nodes => fun h => by
    rw [areCanonical, Bool.and_eq_true] at h
    rw [AreReadable]
    exact ⟨Node.isReadable_of_isCanonical h.1, areReadable_of_areCanonical h.2⟩

end

/-- **A stylesheet in canonical form is read back from its text**, with the same nodes at every
depth; only locations and the numbers of the rules may differ. -/
theorem Stylesheet.parse_render {sheet : Stylesheet} (h : sheet.isCanonical = true)
    (filename : Option String) : ∃ again, Stylesheet.parse filename sheet.render = .ok again ∧
      bareNodes again.nodes = bareNodes sheet.nodes := by
  apply Stylesheet.parse_render_of_isReadable
  intro node hmem
  exact Node.isReadable_of_isCanonical (List.all_eq_true.1 h node hmem)

/-- A stylesheet with a node of each kind. -/
def nestedSheet : Stylesheet where
  nodes := [.statement ⟨"import", "url(a.css) screen", .nowhere⟩,
    .comment " colours " .nowhere,
    .group ⟨"media", "(min-width: 3em)", .nowhere⟩ [
      .rule ⟨4, "a[href=\"\x7b;\"] > b:not(.c)", .nowhere⟩ [
        .declaration ⟨"color", "rgb(1 2 3 / 50%)", true, .nowhere⟩,
        .rule ⟨7, "&:hover", .nowhere⟩ [.declaration ⟨"--x", "", false, .nowhere⟩],
        .rule ⟨9, "i", .nowhere⟩ []]]]
  filename := none
  nextRule := 10

theorem nestedSheet_parse_render : nestedSheet.isCanonical = true ∧
    ∃ again, Stylesheet.parse none nestedSheet.render = .ok again ∧
      bareNodes again.nodes = bareNodes nestedSheet.nodes :=
  have h : nestedSheet.isCanonical = true := by decide +kernel
  ⟨h, Stylesheet.parse_render h none⟩

end StyleBlocks
