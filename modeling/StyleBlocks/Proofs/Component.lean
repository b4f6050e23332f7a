import StyleBlocks.Component

/-!
# What components are made of
-/

namespace StyleBlocks

open Nesting List Component

variable (stop : Location) (opened : List OpenBlock) (level : List Component) (ls : List Lexeme)

namespace Nesting

def first? : List OpenBlock → List Component → Option Lexeme
  | [], level => level.getLast?.map Component.lexeme
  | b :: outer, _ => (first? outer b.before).or (some b.opener)

theorem first?_cons (c : Component) (level : List Component) :
    first? opened (c :: level) = (first? opened level).or (some c.lexeme) := by
  cases opened with
  | nil => rcases h : level.getLast? with _ | last <;> simp [first?, getLast?_cons, h]
  | cons b outer => rcases h : first? outer b.before with _ | last <;> simp [first?, h]

theorem first?_step {n : Nesting} {l : Lexeme} (h : first? n.opened n.level = some l) (x : Lexeme) :
    first? (n.step x).opened (n.step x).level = some l := by
  obtain ⟨opened, level⟩ := n
  unfold step
  split
  · simp [first?, h]
  dsimp only at h ⊢
  split
  · split
    · rw [close, first?_cons]
      exact h
    · rw [first?_cons, h]
      rfl
  · rw [first?_cons, h]
    rfl

theorem head?_finish : (finish stop opened level).head?.map lexeme = first? opened level := by
  induction opened generalizing level with
  | nil => simp [finish, first?]
  | cons b outer ih =>
    rw [finish, ih, first?_cons]
    rfl

end Nesting

namespace Component

theorem head?_group (l : Lexeme) (ls : List Lexeme) :
    (group stop (l :: ls)).head?.map lexeme = some l := by
  have hstart : first? (empty.step l).opened (empty.step l).level = some l := by
    unfold step empty
    split <;> rfl
  refine (head?_finish stop _ _).trans ?_
  exact foldlRecOn (motive := fun n => first? n.opened n.level = some l) ls step hstart
    fun n h x _ => first?_step h x

theorem foldl_step_leaves {ls : List Lexeme} {opened : List OpenBlock}
    (h : ∀ l ∈ ls, l.token.opens = none ∧ ∀ b ∈ opened, l.token.closes ≠ some b.bracket) :
    ls.foldl step ⟨opened, level⟩ = ⟨opened, (ls.map leaf).reverse ++ level⟩ := by
  induction ls generalizing level with
  | nil => rfl
  | cons l ls ih =>
    obtain ⟨hopens, hcloses⟩ := h l (by simp)
    have hstep : step ⟨opened, level⟩ l = ⟨opened, leaf l :: level⟩ := by
      unfold step
      rw [hopens]
      cases opened with
      | nil => rfl
      | cons b outer => exact if_neg (hcloses b (by simp))
    rw [foldl_cons, hstep, ih _ fun m hm => h m (by simp [hm])]
    simp

theorem group_block (body : List Lexeme) {l close : Lexeme} {b : Bracket}
    (hls : ∀ m ∈ ls, m.token.opens = none) (hl : l.token.opens = some b)
    (hbody : ∀ m ∈ body, m.token.opens = none ∧ m.token.closes = none)
    (hclose : close.token = .closer b) : group stop (ls ++ l :: (body ++ [close]))
      = ls.map leaf ++ [block l b (body.map leaf) close.location close.text] := by
  have hopen : ∀ level, step ⟨[], level⟩ l = ⟨[⟨l, b, level⟩], []⟩ := by
    intro level
    unfold step
    rw [hl]
  have hlast : ∀ before level, step ⟨[⟨l, b, before⟩], level⟩ close
      = ⟨[], block l b level.reverse close.location close.text :: before⟩ := by
    intro before level
    unfold step
    rw [hclose]
    exact if_pos rfl
  rw [group, empty, foldl_append, foldl_step_leaves [] fun m hm => ⟨hls m hm, by simp⟩,
    foldl_cons, hopen, foldl_append, foldl_step_leaves [] fun m hm =>
      ⟨(hbody m hm).1, fun _ _ => by rw [(hbody m hm).2]; simp⟩,
    foldl_cons, foldl_nil, hlast]
  simp [finish]

end Component

/-! ## The tokens of components -/

namespace Component

mutual

def lexemes : Component → List Lexeme
  | leaf l => [l]
  | block l _ body _ _ => l :: lexemesOf body

def lexemesOf : List Component → List Lexeme
  | [] => []
  | c :: cs => lexemes c ++ lexemesOf cs

end

theorem lexemesOf_append (cs ds : List Component) :
    lexemesOf (cs ++ ds) = lexemesOf cs ++ lexemesOf ds := by
  induction cs with
  | nil => rfl
  | cons c cs ih => rw [cons_append, lexemesOf, ih, lexemesOf, append_assoc]

theorem sublist_lexemesOf {cs ds : List Component} (h : cs.Sublist ds) :
    (lexemesOf cs).Sublist (lexemesOf ds) := by
  induction h with
  | slnil => exact Sublist.refl _
  | cons d _ ih => exact ih.trans (sublist_append_right ..)
  | cons_cons d _ ih => exact Sublist.append (Sublist.refl _) ih

mutual

/-- Every block begins with a token that opens its bracket. -/
def IsGrouped : Component → Prop
  | leaf _ => True
  | block l b body _ _ => l.token.opens = some b ∧ AreGrouped body

def AreGrouped : List Component → Prop
  | [] => True
  | c :: cs => IsGrouped c ∧ AreGrouped cs

end

theorem areGrouped_iff {cs : List Component} : AreGrouped cs ↔ ∀ c ∈ cs, c.IsGrouped := by
  induction cs with
  | nil => simp [AreGrouped]
  | cons c cs ih => simp [AreGrouped, ih]

end Component

namespace Nesting

def lexemes : List OpenBlock → List Component → List Lexeme
  | [], level => Component.lexemesOf level.reverse
  | b :: outer, level => lexemes outer b.before ++ b.opener :: Component.lexemesOf level.reverse

theorem lexemes_cons (c : Component) (level : List Component) :
    lexemes opened (c :: level) = lexemes opened level ++ c.lexemes := by
  cases opened <;>
    simp [lexemes, lexemesOf_append, lexemesOf]

theorem sublist_lexemes_step (n : Nesting) (l : Lexeme) :
    (lexemes (n.step l).opened (n.step l).level).Sublist (lexemes n.opened n.level ++ [l]) := by
  obtain ⟨opened, level⟩ := n
  have hleaf : lexemes opened (.leaf l :: level) = lexemes opened level ++ [l] :=
    lexemes_cons opened (.leaf l) level
  unfold step
  split
  · exact Sublist.refl _
  dsimp only
  split
  · split
    · rw [close, lexemes_cons]
      exact sublist_append_left ..
    · exact hleaf ▸ Sublist.refl _
  · exact hleaf ▸ Sublist.refl _

theorem lexemesOf_finish : lexemesOf (finish stop opened level) = lexemes opened level := by
  induction opened generalizing level with
  | nil => rfl
  | cons b outer ih => rw [finish, ih, lexemes_cons, lexemes, Component.lexemes]

def IsGrouped (n : Nesting) : Prop :=
  (∀ b ∈ n.opened, b.opener.token.opens = some b.bracket ∧ ∀ c ∈ b.before, c.IsGrouped) ∧
    ∀ c ∈ n.level, c.IsGrouped

theorem IsGrouped.step {n : Nesting} (h : n.IsGrouped) (l : Lexeme) : (n.step l).IsGrouped := by
  obtain ⟨opened, level⟩ := n
  obtain ⟨hopened, hlevel⟩ := h
  have hleaf : ∀ c ∈ leaf l :: level, c.IsGrouped := by
    intro c hc
    rcases mem_cons.1 hc with rfl | hc
    · trivial
    · exact hlevel c hc
  unfold Nesting.step
  split
  · rename_i bracket hl
    refine ⟨fun b hb => ?_, by simp⟩
    rcases mem_cons.1 hb with rfl | hb
    · exact ⟨hl, hlevel⟩
    · exact hopened b hb
  dsimp only at hopened hlevel ⊢
  split
  · rename_i b outer
    split
    · refine ⟨fun b' hb' => hopened b' (mem_cons_of_mem b hb'), fun c hc => ?_⟩
      rcases mem_cons.1 hc with rfl | hc
      · exact ⟨(hopened b (by simp)).1, areGrouped_iff.2 (by simpa using hlevel)⟩
      · exact (hopened b (by simp)).2 c hc
    · exact ⟨hopened, hleaf⟩
  · exact ⟨by simp, hleaf⟩

theorem IsGrouped.finish {opened : List OpenBlock} {level : List Component}
    (h : (⟨opened, level⟩ : Nesting).IsGrouped) :
    ∀ c ∈ Nesting.finish stop opened level, c.IsGrouped := by
  induction opened generalizing level with
  | nil => simpa [Nesting.finish] using h.2
  | cons b outer ih =>
    refine ih ⟨fun b' hb' => h.1 b' (by simp [hb']), fun c hc => ?_⟩
    rcases mem_cons.1 hc with rfl | hc
    · exact ⟨(h.1 b (by simp)).1, areGrouped_iff.2 (by simpa using h.2)⟩
    · exact (h.1 b (by simp)).2 c hc

end Nesting

namespace Component

/-- **Grouping makes no tokens up and keeps their order.** -/
theorem sublist_lexemesOf_group : (lexemesOf (group stop ls)).Sublist ls := by
  have hfold : ∀ (ls : List Lexeme) (n : Nesting),
      (Nesting.lexemes (ls.foldl step n).opened (ls.foldl step n).level).Sublist
        (Nesting.lexemes n.opened n.level ++ ls) := by
    intro ls
    induction ls with
    | nil => intro n; simp
    | cons l ls ih =>
      intro n
      refine (ih (n.step l)).trans ?_
      rw [append_cons]
      exact (n.sublist_lexemes_step l).append (Sublist.refl _)
  rw [group, lexemesOf_finish]
  exact hfold ls .empty

theorem isGrouped_group : ∀ c ∈ group stop ls, c.IsGrouped := by
  have hempty : Nesting.empty.IsGrouped := ⟨by simp [empty], by simp [empty]⟩
  exact IsGrouped.finish stop (foldlRecOn ls step hempty fun n h l _ => h.step l)

end Component

end StyleBlocks
