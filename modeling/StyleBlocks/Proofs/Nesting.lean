import StyleBlocks.Proofs.Component

/-!
# Components and their tokens

Tokens are grouped into components by their brackets, and the tokens of components are grouped into
them again if every bracket is closed and nothing else closes one (`Component.Fits`).  Where a text
ends inside curly brackets, these may be open (`Component.FitsOpen`).

* `Component.group_flatOf`: **the tokens of components that fit are grouped into them again.**
-/

namespace StyleBlocks

open List Nesting Component OpenBlock

variable {b : Bracket} {c : Component} {cs ds : List Component} {l : Lexeme} {ls : List Lexeme}
  {n : Nesting} {opened : List OpenBlock} {t : Token} (stop : Location) (base : List Component)

namespace Component

/-! ## The tokens of components, in full -/

/-- The bracket that closes a block, if anything does. -/
def closing (b : Bracket) (stop : Location) (close : List Char) : List Lexeme :=
  if close = [] then [] else [⟨.closer b, close, stop⟩]

mutual

/-- The tokens of a component, closing brackets included. -/
def flat : Component → List Lexeme
  | leaf l => [l]
  | block l b body stop close => l :: (flatOf body ++ closing b stop close)

def flatOf : List Component → List Lexeme
  | [] => []
  | c :: cs => c.flat ++ flatOf cs

end

theorem flatOf_append (cs ds : List Component) : flatOf (cs ++ ds) = flatOf cs ++ flatOf ds := by
  induction cs with
  | nil => rfl
  | cons c cs ih => rw [cons_append, flatOf, ih, flatOf, append_assoc]

theorem exists_flat_eq (c : Component) : ∃ ls, c.flat = c.lexeme :: ls := by
  cases c with
  | leaf l => exact ⟨[], by rw [flat]; rfl⟩
  | block l b body stop close => exact ⟨_, by rw [flat]; rfl⟩

theorem exists_text_eq (c : Component) : ∃ w, c.text = c.lexeme.text ++ w := by
  cases c with
  | leaf l => exact ⟨[], by rw [text, append_nil]; rfl⟩
  | block l b body stop close => exact ⟨_, by rw [text, append_assoc]; rfl⟩

theorem mem_flatOf_iff : l ∈ flatOf cs ↔ ∃ c ∈ cs, l ∈ c.flat := by
  induction cs with
  | nil => simp [flatOf]
  | cons c cs ih => simp [flatOf, ih]

theorem lexeme_mem_flatOf (h : c ∈ cs) : c.lexeme ∈ flatOf cs := by
  obtain ⟨ls, hls⟩ := c.exists_flat_eq
  exact mem_flatOf_iff.2 ⟨c, h, by rw [hls]; exact mem_cons_self⟩

theorem flatOf_singleton (c : Component) : flatOf [c] = c.flat := by
  rw [flatOf, flatOf, append_nil]

theorem textOf_append (cs ds : List Component) : textOf (cs ++ ds) = textOf cs ++ textOf ds := by
  induction cs with
  | nil => rfl
  | cons c cs ih => rw [cons_append, textOf, ih, textOf, append_assoc]

theorem flatMap_text_closing (b : Bracket) (stop : Location) (close : List Char) :
    (closing b stop close).flatMap Lexeme.text = close := by
  unfold closing
  split
  · rename_i h
    rw [h]
    rfl
  · simp

mutual

theorem flatMap_text_flat : ∀ c : Component, c.flat.flatMap Lexeme.text = c.text
  | leaf l => by
    rw [flat, text]
    simp
  | block l b body stop close => by
    rw [flat, text, flatMap_cons, flatMap_append, flatMap_text_flatOf body,
      flatMap_text_closing, append_assoc]

theorem flatMap_text_flatOf : ∀ cs : List Component, (flatOf cs).flatMap Lexeme.text = textOf cs
  | [] => rfl
  | c :: cs => by
    rw [flatOf, textOf, flatMap_append, flatMap_text_flat c, flatMap_text_flatOf cs]

end

/-! ## Components whose tokens are grouped into them again -/

mutual

/-- Every bracket in the component is closed, and nothing in it closes the bracket `outer` around
it. -/
def Fits (outer : Option Bracket) : Component → Prop
  | leaf l => l.token.opens = none ∧ ∀ b, outer = some b → l.token.closes ≠ some b
  | block l b body _ close => l.token.opens = some b ∧ close ≠ [] ∧ AllFit (some b) body

def AllFit (outer : Option Bracket) : List Component → Prop
  | [] => True
  | c :: cs => c.Fits outer ∧ AllFit outer cs

end

mutual

/-- As `Fits`, but curly brackets may be open where the text ends. -/
def FitsOpen (outer : Option Bracket) : Component → Prop
  | leaf l => l.token.opens = none ∧ ∀ b, outer = some b → l.token.closes ≠ some b
  | block l b body _ close => l.token.opens = some b ∧
      (close = [] → b = .curly) ∧ (close ≠ [] → AllFit (some b) body) ∧ AllFitOpen (some b) body

def AllFitOpen (outer : Option Bracket) : List Component → Prop
  | [] => True
  | c :: cs => c.FitsOpen outer ∧ (cs ≠ [] → c.Fits outer) ∧ AllFitOpen outer cs

end

variable {outer : Option Bracket}

theorem allFit_iff : AllFit outer cs ↔ ∀ c ∈ cs, c.Fits outer := by
  induction cs with
  | nil => simp [AllFit]
  | cons c cs ih => simp [AllFit, ih]

theorem fits_leaf (hopens : l.token.opens = none) (hcloses : l.token.closes = none) :
    (leaf l).Fits outer := by
  rw [Fits, hcloses]
  exact ⟨hopens, fun _ _ => nofun⟩

theorem allFit_append : AllFit outer (cs ++ ds) ↔ AllFit outer cs ∧ AllFit outer ds := by
  simp only [allFit_iff, mem_append, or_imp, forall_and]

theorem allFit_singleton : AllFit outer [c] ↔ c.Fits outer := by
  simp [AllFit]

theorem leaf_or_closer_of_getLast?_flatOf (h : AllFit outer cs)
    (hl : (flatOf cs).getLast? = some l) : cs.getLast? = some (leaf l) ∨ ∃ b, l.token = .closer b := by
  rcases eq_nil_or_concat cs with rfl | ⟨init, c, hcs⟩
  · cases hl
  rw [concat_eq_append] at hcs
  subst hcs
  have hc := (allFit_singleton.1 (allFit_append.1 h).2)
  rw [flatOf_append, flatOf_singleton] at hl
  cases c with
  | leaf l' =>
    rw [flat, getLast?_concat] at hl
    cases hl
    exact .inl getLast?_concat
  | block l' b body stop close =>
    rw [flat, closing, if_neg hc.2.1, ← cons_append, ← append_assoc, getLast?_concat] at hl
    cases hl
    exact .inr ⟨b, rfl⟩

theorem opens_of_getLast?_flatOf (h : AllFit outer cs) (hl : (flatOf cs).getLast? = some l) :
    l.token.opens = none := by
  rcases leaf_or_closer_of_getLast?_flatOf h hl with hlast | ⟨b, hb⟩
  · have hfits := allFit_iff.1 h _ (mem_of_getLast? hlast)
    exact hfits.1
  · rw [hb]
    rfl

theorem AllFitOpen.fitsOpen (h : AllFitOpen outer cs) : ∀ c ∈ cs, c.FitsOpen outer := by
  induction cs with
  | nil => exact nofun
  | cons d cs ih =>
    intro c hc
    rcases mem_cons.1 hc with rfl | hc
    · exact h.1
    · exact ih h.2.2 c hc

theorem AllFitOpen.right (h : AllFitOpen outer (cs ++ ds)) : AllFitOpen outer ds := by
  induction cs with
  | nil => exact h
  | cons c cs ih =>
    exact ih h.2.2

mutual

theorem Fits.fitsOpen {outer : Option Bracket} : ∀ {c : Component}, c.Fits outer → c.FitsOpen outer
  | leaf l => fun h => by
    rw [Fits] at h
    rw [FitsOpen]
    exact h
  | block l b body stop close => fun h => by
    rw [Fits] at h
    rw [FitsOpen]
    exact ⟨h.1, fun hclose => absurd hclose h.2.1, fun _ => h.2.2, AllFit.allFitOpen h.2.2⟩

theorem AllFit.allFitOpen {outer : Option Bracket} :
    ∀ {cs : List Component}, AllFit outer cs → AllFitOpen outer cs
  | [] => fun _ => by
    rw [AllFitOpen]
    trivial
  | c :: cs => fun h => by
    rw [AllFit] at h
    rw [AllFitOpen]
    exact ⟨Fits.fitsOpen h.1, fun _ => h.1, AllFit.allFitOpen h.2⟩

end

theorem allFitOpen_concat (hcs : ∀ d ∈ cs, d.Fits outer) (hc : c.FitsOpen outer) :
    AllFitOpen outer (cs ++ [c]) := by
  induction cs with
  | nil =>
    exact ⟨hc, fun hne => absurd rfl hne, trivial⟩
  | cons d cs ih =>
    have hd := hcs d mem_cons_self
    exact ⟨hd.fitsOpen, fun _ => hd, ih fun e he => hcs e (mem_cons_of_mem _ he)⟩

end Component

namespace Nesting

theorem step_open (h : l.token.opens = some b) : n.step l = ⟨⟨l, b, n.level⟩ :: n.opened, []⟩ := by
  unfold step
  rw [h]

theorem step_leaf {level : List Component} (h : l.token.opens = none)
    (hc : ∀ b, opened.head?.map bracket = some b → l.token.closes ≠ some b) :
    step ⟨opened, level⟩ l = ⟨opened, .leaf l :: level⟩ := by
  unfold step
  rw [h]
  cases opened with
  | nil => rfl
  | cons b outer => exact if_neg (hc b.bracket rfl)

theorem step_close {b : OpenBlock} {outer : List OpenBlock} {level : List Component}
    (h : l.token = .closer b.bracket) :
    step ⟨b :: outer, level⟩ l = close b outer level l.location l.text := by
  unfold step
  rw [h]
  exact if_pos rfl

end Nesting

namespace Component

mutual

theorem foldl_flat {inner : Option Bracket} : ∀ {c : Component}, c.Fits inner →
    ∀ {opened : List OpenBlock} (level : List Component),
      opened.head?.map bracket = inner →
        c.flat.foldl step ⟨opened, level⟩ = ⟨opened, c :: level⟩
  | leaf l => fun h opened level hinner => by
    rw [Fits] at h
    subst hinner
    exact step_leaf h.1 h.2
  | block l b body stop close => fun h opened level hinner => by
    rw [Fits] at h
    obtain ⟨hopen, hclose, hbody⟩ := h
    rw [flat, closing, if_neg hclose, foldl_cons, step_open hopen, foldl_append,
      foldl_flatOf hbody [] rfl, foldl_cons, foldl_nil, step_close rfl,
      Nesting.close, append_nil, reverse_reverse]

/-- **The tokens of components that fit are grouped into them again.** -/
theorem foldl_flatOf {inner : Option Bracket} : ∀ {cs : List Component}, AllFit inner cs →
    ∀ {opened : List OpenBlock} (level : List Component),
      opened.head?.map bracket = inner →
        (flatOf cs).foldl step ⟨opened, level⟩ = ⟨opened, cs.reverse ++ level⟩
  | [] => fun _ _ _ _ => rfl
  | c :: cs => fun h opened level hinner => by
    rw [AllFit] at h
    rw [flatOf, foldl_append, foldl_flat h.1 level hinner, foldl_flatOf h.2 _ hinner,
      reverse_cons, append_assoc]
    rfl

end

theorem group_flatOf (h : AllFit none cs) : group stop (flatOf cs) = cs := by
  rw [group, empty, foldl_flatOf h [] rfl, append_nil, finish, reverse_reverse]

end Component

/-! ## What stands before -/

namespace Nesting

/-- What is read, behind the components `base` of the outermost level, last first. -/
def onto (base : List Component) : List OpenBlock → List Component → Nesting
  | [], level => ⟨[], level ++ base⟩
  | b :: outer, level =>
    let n := onto base outer b.before
    ⟨⟨b.opener, b.bracket, n.level⟩ :: n.opened, level⟩

theorem step_onto (n : Nesting) (l : Lexeme) :
    (onto base n.opened n.level).step l = onto base (n.step l).opened (n.step l).level := by
  obtain ⟨opened, level⟩ := n
  unfold step
  cases l.token.opens with
  | some b => rfl
  | none =>
    cases opened with
    | nil => rfl
    | cons b outer =>
      dsimp only [onto]
      split
      · cases outer <;> rfl
      · rfl

theorem foldl_onto (ls : List Lexeme) (n : Nesting) :
    ls.foldl step (onto base n.opened n.level)
      = onto base (ls.foldl step n).opened (ls.foldl step n).level := by
  induction ls generalizing n with
  | nil => rfl
  | cons l ls ih => rw [foldl_cons, foldl_cons, step_onto, ih]

theorem finish_onto (opened : List OpenBlock) (level : List Component) :
    finish stop (onto base opened level).opened (onto base opened level).level
      = base.reverse ++ finish stop opened level := by
  induction opened generalizing level with
  | nil => simp [onto, finish]
  | cons b outer ih =>
    have hcons : ∀ c : Component, (onto base outer (c :: b.before)).opened
        = (onto base outer b.before).opened ∧ (onto base outer (c :: b.before)).level
          = c :: (onto base outer b.before).level := by
      intro c
      cases outer <;> exact ⟨rfl, rfl⟩
    rw [onto, finish, finish, ← ih, (hcons _).1, (hcons _).2]

end Nesting

/-- **Components that fit do not change how what follows them is grouped.** -/
theorem Component.group_append (h : AllFit none cs) (ls : List Lexeme) :
    group stop (flatOf cs ++ ls) = cs ++ group stop ls := by
  rw [group, group, foldl_append, empty, foldl_flatOf h [] rfl, append_nil]
  have hbase : (⟨[], cs.reverse⟩ : Nesting) = onto cs.reverse [] [] := rfl
  rw [hbase, foldl_onto cs.reverse ls ⟨[], []⟩, finish_onto, reverse_reverse]

/-! ## What grouping makes -/

theorem Token.eq_opener_curly (h : t.opens = some .curly) : t = .opener .curly := by
  cases t with
  | opener b =>
    cases h
    rfl
  | _ => cases h

theorem Token.eq_closer (h : t.closes = some b) : t = .closer b := by
  cases t with
  | closer b' =>
    cases h
    rfl
  | _ => cases h

namespace Nesting

def Fitting : List OpenBlock → List Component → Prop
  | [], level => ∀ c ∈ level, c.Fits none
  | b :: outer, level => b.opener.token.opens = some b.bracket ∧
      (∀ c ∈ level, c.Fits (some b.bracket)) ∧ Fitting outer b.before

theorem Fitting.cons {level : List Component} {c : Component} (h : Fitting opened level)
    (hc : c.Fits (opened.head?.map bracket)) : Fitting opened (c :: level) := by
  cases opened with
  | nil =>
    intro d hd
    rcases mem_cons.1 hd with rfl | hd
    · exact hc
    · exact h d hd
  | cons b outer =>
    refine ⟨h.1, fun d hd => ?_, h.2.2⟩
    rcases mem_cons.1 hd with rfl | hd
    · exact hc
    · exact h.2.1 d hd

/-- The tokens that are read so far, closing brackets included. -/
def flat : List OpenBlock → List Component → List Lexeme
  | [], level => Component.flatOf level.reverse
  | b :: outer, level => flat outer b.before ++ b.opener :: Component.flatOf level.reverse

theorem flat_cons (opened : List OpenBlock) (c : Component) (level : List Component) :
    flat opened (c :: level) = flat opened level ++ c.flat := by
  cases opened <;>
    simp [flat, flatOf_append, flatOf]

theorem opens_or_closes (opened : List OpenBlock) (l : Lexeme) : (∃ b, l.token.opens = some b) ∨
    (∃ b outer, opened = b :: outer ∧ l.token = .closer b.bracket) ∨
      l.token.opens = none ∧ ∀ b, opened.head?.map bracket = some b → l.token.closes ≠ some b := by
  cases hopens : l.token.opens with
  | some b => exact .inl ⟨b, rfl⟩
  | none =>
    by_cases hcloses : ∃ b outer, opened = b :: outer ∧ l.token = .closer b.bracket
    · exact .inr (.inl hcloses)
    refine .inr (.inr ⟨rfl, fun b hb hc => ?_⟩)
    cases opened with
    | nil => cases hb
    | cons b' outer =>
      cases hb
      exact hcloses ⟨b', outer, rfl, Token.eq_closer hc⟩

theorem fitting_step (h : Fitting n.opened n.level) (hl : l.text ≠ []) :
    Fitting (n.step l).opened (n.step l).level ∧
      flat (n.step l).opened (n.step l).level = flat n.opened n.level ++ [l] := by
  obtain ⟨opened, level⟩ := n
  obtain ⟨b, hopens⟩ | ⟨b, outer, rfl, htoken⟩ | ⟨hopens, hleaf⟩ := opens_or_closes opened l
  · rw [step_open hopens]
    exact ⟨⟨hopens, by simp, h⟩, rfl⟩
  · rw [step_close htoken, close]
    obtain ⟨hb, hlevel, houter⟩ := h
    constructor
    · refine houter.cons ?_
      rw [Fits, allFit_iff]
      exact ⟨hb, hl, fun c hc => hlevel c (mem_reverse.1 hc)⟩
    · rw [flat_cons, Component.flat, closing, if_neg hl, flat, ← htoken]
      simp
  · rw [step_leaf hopens hleaf]
    refine ⟨h.cons ?_, flat_cons ..⟩
    exact ⟨hopens, hleaf⟩

theorem flatOf_finish (opened : List OpenBlock) (level : List Component) (stop : Location) :
    flatOf (finish stop opened level) = flat opened level := by
  induction opened generalizing level with
  | nil => rfl
  | cons b outer ih =>
    rw [finish, ih, flat_cons, Component.flat, closing, if_pos rfl, append_nil, flat]

theorem Fitting.level {level : List Component} (h : Fitting opened level) :
    (∀ c ∈ level, c.Fits (opened.head?.map bracket)) ∧ Fitting opened [] := by
  cases opened with
  | nil => exact ⟨h, by simp [Fitting]⟩
  | cons b outer => exact ⟨h.2.1, h.1, by simp, h.2.2⟩

theorem fitsOpen_finish {level : List Component} (h : Fitting opened [])
    (hcurly : ∀ b ∈ opened, b.bracket = .curly)
    (hlevel : AllFitOpen (opened.head?.map bracket) level.reverse) :
    AllFitOpen none (finish stop opened level) := by
  induction opened generalizing level with
  | nil => exact hlevel
  | cons b outer ih =>
    obtain ⟨hopens, -, houter⟩ := h
    obtain ⟨hbefore, houter⟩ := houter.level
    refine ih houter (fun b' hb' => hcurly b' (mem_cons_of_mem b hb')) ?_
    rw [reverse_cons]
    refine allFitOpen_concat (fun c hc => hbefore c (mem_reverse.1 hc)) ?_
    exact ⟨hopens, fun _ => hcurly b (by simp), fun h => absurd rfl h, hlevel⟩

end Nesting

namespace Component

/-- The brackets that are open at the end of the tokens, innermost first. -/
def openAtEnd (ls : List Lexeme) : List Bracket :=
  (ls.foldl Nesting.step Nesting.empty).opened.map OpenBlock.bracket

theorem fitting_foldl (h : ∀ l ∈ ls, l.text ≠ []) :
    Fitting (ls.foldl step empty).opened
      (ls.foldl step empty).level ∧
    Nesting.flat (ls.foldl step empty).opened (ls.foldl step empty).level = ls := by
  have hfold : ∀ (ls : List Lexeme) (n : Nesting), (∀ l ∈ ls, l.text ≠ []) →
      Fitting n.opened n.level →
      Fitting (ls.foldl step n).opened (ls.foldl step n).level ∧
        Nesting.flat (ls.foldl step n).opened (ls.foldl step n).level
          = Nesting.flat n.opened n.level ++ ls := by
    intro ls
    induction ls with
    | nil => exact fun n _ h => ⟨h, (append_nil _).symm⟩
    | cons l ls ih =>
      intro n hls h
      obtain ⟨hfits, hflat⟩ := fitting_step h (hls l (by simp))
      obtain ⟨hfits', hflat'⟩ := ih (n.step l) (fun l' hl' => hls l' (by simp [hl'])) hfits
      refine ⟨hfits', ?_⟩
      rw [foldl_cons, hflat', hflat, append_assoc]
      rfl
  exact hfold ls .empty h (by simp [Fitting, empty])

/-- **Grouping loses no token.** -/
theorem flatOf_group (h : ∀ l ∈ ls, l.text ≠ []) : flatOf (group stop ls) = ls := by
  rw [group, flatOf_finish]
  exact (fitting_foldl h).2

/-- **Components whose brackets are closed fit.** -/
theorem fits_group (h : ∀ l ∈ ls, l.text ≠ []) (hopen : openAtEnd ls = []) :
    AllFit none (group stop ls) := by
  have hfits := (fitting_foldl h).1
  rw [openAtEnd, map_eq_nil_iff] at hopen
  rw [hopen] at hfits
  rw [group, hopen, finish, allFit_iff]
  exact fun c hc => hfits c (mem_reverse.1 hc)

/-- **Components in which at most curly brackets are open fit, up to those.** -/
theorem fitsOpen_group (h : ∀ l ∈ ls, l.text ≠ []) (hopen : ∀ b ∈ openAtEnd ls, b = .curly) :
    AllFitOpen none (group stop ls) := by
  obtain ⟨hlevel, hopened⟩ := (fitting_foldl h).1.level
  refine fitsOpen_finish stop hopened (fun b hb => hopen _ (mem_map_of_mem hb)) ?_
  exact AllFit.allFitOpen (allFit_iff.2 fun c hc => hlevel c (mem_reverse.1 hc))

theorem Fits.of_fitsOpen {outer : Option Bracket} (h : c.FitsOpen outer) (hc : c.isCurly = false) :
    c.Fits outer := by
  cases c with
  | leaf l =>
    exact h
  | block l b body stop close =>
    obtain ⟨hopens, hcurly, hbody, -⟩ := h
    have hclose : close ≠ [] := by
      intro hclose
      rw [hcurly hclose] at hc
      cases hc
    exact ⟨hopens, hclose, hbody hclose⟩

end Component

end StyleBlocks
