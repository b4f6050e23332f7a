import StyleBlocks.Proofs.Steps
import StyleBlocks.Proofs.Stylesheet.Priorities

/-!
# Printing what was read

Printing a stylesheet that was read, reading it again and printing it once more gives the same text,
if its texts are not cut where something else follows when they are printed.

Main result: `Stylesheet.render_parse_render`.
-/

namespace StyleBlocks

open Component List Lexeme Node

variable {nodes : List Node} {stop : Location} {pending : Pending} {cs : List Component}
  {q : List Char} {c : Component} {top : Bool} {outer : Option Bracket}

/-! ## Levels -/

/-- The components of a level, before a text with which no token goes on: they are read as they
stand, and their tokens are tidy. -/
structure Level (outer : Option Bracket) (cs : List Component) (q : List Char) : Prop where
  reads : Lexeme.cut (Component.textOf cs ++ q) = Component.flatOf cs ++ Lexeme.cut q
  fits : Component.AllFitOpen outer cs
  tidy : ∀ l ∈ Component.flatOf cs, l.isTidy = true
  ends : EndsToken q

namespace Level

variable {ds : List Component}

theorem right (h : Level outer (cs ++ ds) q) : Level outer ds q := by
  refine ⟨(cut_textOf_append h.reads).2, h.fits.right, fun l hl => h.tidy l ?_, h.ends⟩
  rw [flatOf_append]
  exact mem_append_right _ hl

theorem run (h : Level outer (cs ++ ds) q) (hcurly : ∀ c ∈ cs, c.isCurly = false) :
    Run outer cs (textOf ds ++ q) := by
  refine ⟨⟨(cut_textOf_append h.reads).1, allFit_iff.2 fun c hc => ?_,
    fun l hl => h.tidy l ?_⟩, hcurly⟩
  · exact Fits.of_fitsOpen (h.fits.fitsOpen c (mem_append_left _ hc)) (hcurly c hc)
  · rw [flatOf_append]
    exact mem_append_left _ hl

theorem mem_cut (h : Level outer (c :: cs) q) : c.lexeme ∈ cut (textOf (c :: cs) ++ q) := by
  rw [h.reads]
  exact mem_append_left _ (lexeme_mem_flatOf mem_cons_self)

theorem endsToken (h : Level outer (c :: cs) q) (hc : c.isCurly = true ∨ c.isSemicolon = true) :
    EndsToken (textOf (c :: cs) ++ q) := by
  obtain ⟨a, w, rest, htext, hread⟩ := reads_of_mem_cut h.mem_cut
  have hreads := Token.reads_read a (w ++ rest)
  rw [hread] at hreads
  have ha : a = '\x7b' ∨ a = ';' := by
    rcases hc with hc | hc
    · have hfits := h.fits.fitsOpen c mem_cons_self
      cases c with
      | leaf l => cases hc
      | block l b body stop close =>
        cases b with
        | curly =>
          rw [FitsOpen] at hfits
          have htoken : (Component.block l .curly body stop close).lexeme.token = .opener .curly :=
            Token.eq_opener_curly hfits.1
          rw [htoken] at hreads
          exact .inl hreads.1
        | _ => cases hc
    · have htoken : c.lexeme.token = .semicolon := eq_of_beq hc
      rw [htoken] at hreads
      exact .inr hreads.1
  obtain ⟨w', hw'⟩ := c.exists_text_eq
  rw [textOf, hw', htext]
  rcases ha with rfl | rfl
  · exact endsToken_cons (stop_of_mem (by simp)) (by decide) _
  · exact endsToken_semicolon _

/-- **The body of a rule is a level**, before the bracket that closes it. -/
theorem body {l : Lexeme} {body : List Component} {close : List Char}
    (h : Level outer (.block l .curly body stop close :: cs) q) :
    Level (some .curly) body (close ++ (textOf cs ++ q)) := by
  have hfits := h.fits
  rw [AllFitOpen, FitsOpen] at hfits
  obtain ⟨⟨hopens, -, -, hbody⟩, hlast, -⟩ := hfits
  have hcut := h.reads
  rw [flatOf, flat, ← cons_append, append_assoc, append_assoc]
    at hcut
  have hclosing := cut_flatMap_text hcut
  rw [cons_append] at hcut
  have hbody' := @cut_flatMap_text _ [l] (flatOf body ++ _) hcut
  simp only [flatMap_append, flatMap_text_flatOf, flatMap_text_closing,
    flatMap_text_cut] at hclosing hbody'
  refine ⟨by rw [hbody', hclosing], hbody, fun l' hl' => h.tidy l' ?_, ?_⟩
  · rw [flatOf, flat]
    simp [hl']
  by_cases hclose : close = []
  · -- the bracket is open, so nothing follows
    have hcs : cs = [] := by
      by_contra hne
      have hfits := hlast hne
      rw [Fits] at hfits
      exact hfits.2.1 hclose
    rw [hclose, hcs]
    exact h.ends
  · have hmem : (⟨.closer .curly, close, stop⟩ : Lexeme) ∈ cut (close ++ (textOf cs ++ q)) := by
      rw [hclosing, closing, if_neg hclose]
      simp
    have htext : close = ['\x7d'] := text_of_closer hmem rfl
    rw [htext]
    exact endsToken_cons (stop_of_mem (by simp)) (by decide) _

end Level

/-! ## Nodes -/

/-- Whether a text ends with a backslash, which would take along what is written behind it. -/
def endsInBackslash (s : String) : Bool :=
  s.toList.getLast? == some '\\'

mutual

/-- Whether the names in a node are written as they are read, and no text in it ends with what is
read in another way when it is written: a backslash, or a comment before the semicolon of an
at-rule. -/
def Node.isReprintable : Node → Bool
  | .rule head body => !endsInBackslash head.selector && areReprintable body
  | .group head body =>
    isIdentifier head.name && !endsInBackslash head.params && areReprintable body
  | .statement head =>
    isIdentifier head.name && !endsInBackslash head.params &&
      !decide (['*', '/'] <:+ head.params.toList)
  | .declaration d => isIdentifier d.property && !endsInBackslash d.value
  | .comment _ _ => true

def areReprintable : List Node → Bool
  | [] => true
  | node :: nodes => node.isReprintable && areReprintable nodes

end

theorem getLast?_of_endsInBackslash {s : String} (h : endsInBackslash s = false) :
    s.toList.getLast? ≠ some '\\' :=
  beq_eq_false_iff_ne.1 h

theorem exists_valueOf_of_readDeclaration {cs tail : List Component} {d : Declaration}
    (hcs : ∀ c ∈ cs, c.isSemicolon = false)
    (htail : tail = [] ∨ ∃ c : Component, tail = [c] ∧ c.isSemicolon = true)
    (h : readDeclaration stop (cs ++ tail) = .ok d) :
    ∃ before vs, cs = before ++ vs ∧ (d.value, d.important) = valueOf vs := by
  obtain ⟨first, rest, name, colon, rest', hfirst, -, hrest, hcolon, rfl⟩ :=
    readDeclaration_eq_ok_iff.1 h
  obtain ⟨fillers, hfillers⟩ := dropWhile_suffix (l := rest) isFiller
  rw [hrest] at hfillers
  have hsplit : cs ++ tail = (first :: (fillers ++ [colon])) ++ rest' := by
    rw [hfirst, ← hfillers]
    simp
  have hvalue : ∀ vs, rest' = vs ++ tail → (∀ c ∈ vs, c.isSemicolon = false) →
      rest'.takeWhile (!·.isSemicolon) = vs := by
    rintro vs rfl hvs
    rw [takeWhile_append_of_pos fun c hc => by simp [hvs c hc]]
    rcases htail with rfl | ⟨c, rfl, hc⟩
    · simp
    · simp [hc]
  obtain ⟨vs, hvs, hcs'⟩ : ∃ vs, rest' = vs ++ tail ∧ cs = first :: (fillers ++ [colon]) ++ vs := by
    rcases htail with rfl | ⟨c, rfl, hc⟩
    · rw [append_nil] at hsplit
      exact ⟨rest', (append_nil _).symm, hsplit⟩
    rcases eq_nil_or_concat rest' with rfl | ⟨vs, e, he⟩
    · exfalso
      rw [append_nil, ← cons_append] at hsplit
      obtain ⟨-, hlast⟩ := append_inj' hsplit rfl
      obtain rfl := (cons.inj hlast).1
      rw [isSemicolon, hcolon] at hc
      cases hc
    · rw [concat_eq_append] at he
      subst he
      rw [← append_assoc] at hsplit
      obtain ⟨rfl, hlast⟩ := append_inj' hsplit rfl
      obtain rfl := (cons.inj hlast).1
      exact ⟨vs, rfl, rfl⟩
  refine ⟨first :: (fillers ++ [colon]), vs, hcs', ?_⟩
  rw [hvalue vs hvs fun c hc => hcs c (by rw [hcs']; exact mem_append_right _ hc)]

/-! ## Statements -/

/-- The statement that has begun, before the components that are left of its level. -/
def Pending.IsRun (top : Bool) (cs : List Component) (q : List Char) : Pending → Prop
  | nothing => Level (levelBracket top) cs q
  | rule _ seen => Level (levelBracket top) (seen.reverse ++ cs) q ∧
      (∀ c ∈ seen, c.isCurly = false) ∧
      (∃ c, seen.getLast? = some c ∧ c.token.beginsStatement = true) ∧
      (top = false → (∀ c ∈ seen, c.isSemicolon = false) ∧ startsRule cs = true)
  | atRule _ _ seen => Level (levelBracket top) (seen.reverse ++ cs) q ∧
      (∀ c ∈ seen, c.isCurly = false) ∧ ∀ c ∈ seen, c.isSemicolon = false
  | declaration seen => Level (levelBracket top) (seen.reverse ++ cs) q ∧
      (∀ c ∈ seen, c.isCurly = false) ∧ (∀ c ∈ seen, c.isSemicolon = false) ∧
      top = false ∧ startsRule cs = false

theorem startsRule_cons (hc : c.isCurly = false) :
    startsRule (c :: cs) = (!c.isSemicolon && startsRule cs) := by
  rw [startsRule, hc, if_neg Bool.false_ne_true]
  cases c.isSemicolon <;> rfl

theorem Level.tail (h : Level outer (c :: cs) q) : Level outer cs q :=
  @Level.right [c] q outer cs h

namespace Pending.IsRun

/-- **A component that begins a statement.** -/
theorem start (h : Level (levelBracket top) (c :: cs) q) (hc : c.isCurly = false) :
    (Pending.start top c cs).IsRun top cs q := by
  by_cases hbegins : c.token.beginsStatement = true
  · rw [Pending.start_of_beginsStatement hbegins]
    have hrun : startsRule (c :: cs) = (!c.isSemicolon && startsRule cs) := startsRule_cons hc
    cases hrule : top || startsRule (c :: cs) with
    | true =>
      refine ⟨h, by simpa using hc, ⟨c, rfl, hbegins⟩, fun htop => ?_⟩
      rw [htop, Bool.false_or, hrun, Bool.and_eq_true, Bool.not_eq_true'] at hrule
      exact ⟨by simpa using hrule.1, hrule.2⟩
    | false =>
      rw [Bool.or_eq_false_iff, hrun] at hrule
      have hsemicolon : c.isSemicolon = false := isSemicolon_of_beginsStatement hbegins
      rw [hsemicolon] at hrule
      exact ⟨h, by simpa using hc, by simpa using hsemicolon, hrule.1, hrule.2⟩
  · unfold Pending.start
    cases htoken : c.token with
    | space | semicolon | comment => exact h.tail
    | atKeyword name => exact ⟨h.tail, nofun, nofun⟩
    | _ =>
      rw [htoken] at hbegins
      exact absurd rfl hbegins

variable {location : Location} {name : String} {seen : List Component}

theorem rule_cons (h : (Pending.rule location seen).IsRun top (c :: cs) q)
    (hc : c.isCurly = false) : (Pending.rule location (c :: seen)).IsRun top cs q := by
  obtain ⟨hlevel, hcurly, ⟨first, hfirst, hbegins⟩, htop⟩ := h
  refine ⟨by simpa using hlevel, by simpa using ⟨hc, hcurly⟩, ⟨first, ?_, hbegins⟩, fun h => ?_⟩
  · rw [getLast?_cons, hfirst]
    rfl
  · obtain ⟨hsemicolon, hrule⟩ := htop h
    rw [startsRule_cons hc, Bool.and_eq_true, Bool.not_eq_true'] at hrule
    exact ⟨by simpa using ⟨hrule.1, hsemicolon⟩, hrule.2⟩

theorem isCurly_of_declaration (h : (Pending.declaration seen).IsRun top (c :: cs) q) :
    c.isCurly = false := by
  have hrule := h.2.2.2.2
  rw [startsRule] at hrule
  cases hc : c.isCurly with
  | false => rfl
  | true =>
    rw [hc] at hrule
    cases hrule

theorem declaration_cons (h : (Pending.declaration seen).IsRun top (c :: cs) q)
    (hs : c.isSemicolon = false) : (Pending.declaration (c :: seen)).IsRun top cs q := by
  have hc := h.isCurly_of_declaration
  obtain ⟨hlevel, hcurly, hsemicolon, htop, hrule⟩ := h
  rw [startsRule_cons hc, hs] at hrule
  exact ⟨by simpa using hlevel, by simpa using ⟨hc, hcurly⟩, by simpa using ⟨hs, hsemicolon⟩, htop,
    hrule⟩

theorem push (h : pending.IsRun top (c :: cs) q) (hc : pending.takes c = true) :
    (pending.push [c]).IsRun top cs q := by
  cases pending with
  | nothing => cases hc
  | rule => exact rule_cons h (by simpa [takes] using hc)
  | atRule =>
    obtain ⟨hlevel, hcurly, hsemicolon⟩ := h
    have hc : c.isCurly = false ∧ c.isSemicolon = false := by simpa [takes] using hc
    exact ⟨by simpa using hlevel, by simpa using ⟨hc.1, hcurly⟩, by simpa using ⟨hc.2, hsemicolon⟩⟩
  | declaration => exact declaration_cons h (by simpa [takes] using hc)

/-- **A declaration that is read is read back**, before a semicolon or at the end of its level. -/
theorem isReadable_declaration {tail : List Component} {r : List Char} {d : Declaration}
    (h : Run (some .curly) seen.reverse r) (hr : EndsToken r)
    (hsemicolon : ∀ c ∈ seen, c.isSemicolon = false)
    (htail : tail = [] ∨ ∃ c : Component, tail = [c] ∧ c.isSemicolon = true)
    (hread : readDeclaration stop (seen.reverse ++ tail) = .ok d)
    (hd : (Node.declaration d).isReprintable = true) : (Node.declaration d).IsReadable false := by
  obtain ⟨before, vs, hseen, hvalue⟩ := exists_valueOf_of_readDeclaration
    (fun c hc => hsemicolon c (mem_reverse.1 hc)) htail hread
  rw [isReprintable, Bool.and_eq_true, Bool.not_eq_true'] at hd
  rw [hseen] at h
  obtain ⟨hvalue₁, hvalue₂⟩ := Prod.mk.inj (hvalue.trans (Prod.eta _).symm)
  have hvs := h.right.readsValue hr (fun c hc => hsemicolon c ?_) ?_
  · rw [← hvalue₁, ← hvalue₂] at hvs
    rw [IsReadable]
    exact ⟨rfl, hd.1, hvs⟩
  · rw [← mem_reverse, hseen]
    exact mem_append_right _ hc
  · rw [← hvalue₁]
    exact getLast?_of_endsInBackslash hd.2

theorem level (h : pending.IsRun top cs q) : Level (levelBracket top) cs q := by
  cases pending with
  | nothing => exact h
  | rule | atRule | declaration => exact h.1.right

theorem readsSelector (h : (Pending.rule location seen).IsRun top (c :: cs) q)
    (hc : c.isCurly = true) (hback : endsInBackslash (preludeText seen) = false)
    (hne : (preludeText seen).isEmpty = false) : ReadsSelector top (preludeText seen).toList := by
  have hend := h.level.endsToken (.inl hc)
  obtain ⟨hlevel, hcurly, ⟨first, hfirst, hbegins⟩, htop⟩ := h
  have hrun := hlevel.run fun c hc => hcurly c (mem_reverse.1 hc)
  have hselector := hrun.readsSelector_preludeText hend
  rw [reverse_reverse] at hselector
  exact hselector ⟨first, by rwa [head?_reverse], hbegins⟩
    (fun h c hc => (htop h).1 c (mem_reverse.1 hc)) (getLast?_of_endsInBackslash hback) hne

theorem readsParams (h : (Pending.atRule name location seen).IsRun top (c :: cs) q)
    (hc : c.isCurly = true ∨ c.isSemicolon = true)
    (hback : endsInBackslash (preludeText seen) = false) :
    ReadsParams top (preludeText seen).toList := by
  have hend := h.level.endsToken hc
  obtain ⟨hlevel, hcurly, hsemicolon⟩ := h
  have hrun := hlevel.run fun c hc => hcurly c (mem_reverse.1 hc)
  have hparams := hrun.readsParams_preludeText hend
  rw [reverse_reverse] at hparams
  exact hparams (fun c hc => hsemicolon c (mem_reverse.1 hc)) (getLast?_of_endsInBackslash hback)

theorem readsParams_end (h : (Pending.atRule name location seen).IsRun top [] q)
    (hback : endsInBackslash (spanText seen) = false)
    (hcomment : ¬ ['*', '/'] <:+ (spanText seen).toList) :
    ReadsParams top (spanText seen).toList := by
  obtain ⟨hlevel, hcurly, hsemicolon⟩ := h
  have hrun := hlevel.run fun c hc => hcurly c (mem_reverse.1 hc)
  have hparams := hrun.readsParams_spanText hlevel.ends
  rw [reverse_reverse] at hparams
  exact hparams (fun c hc => hsemicolon c (mem_reverse.1 hc))
    (getLast?_of_endsInBackslash hback) hcomment

end Pending.IsRun

/-! ## Whole levels -/

theorem areReadable_iff : AreReadable nodes ↔ ∀ node ∈ nodes, node.IsReadable false := by
  induction nodes with
  | nil => simp [AreReadable]
  | cons node nodes ih => simp [AreReadable, ih]

theorem isReadable_cons {node : Node} (hnodes : areReprintable (node :: nodes) = true)
    (hnode : node.isReprintable = true → node.IsReadable top)
    (hrest : areReprintable nodes = true → ∀ node ∈ nodes, node.IsReadable top) :
    ∀ node' ∈ node :: nodes, node'.IsReadable top := by
  rw [areReprintable, Bool.and_eq_true] at hnodes
  intro node' hmem
  rcases mem_cons.1 hmem with rfl | hmem
  · exact hnode hnodes.1
  · exact hrest hnodes.2 node' hmem

theorem isReadable_of_finish (h : pending.IsRun top [] q)
    (hfinish : pending.finish stop = .ok nodes) (hnodes : areReprintable nodes = true) :
    ∀ node ∈ nodes, node.IsReadable top := by
  cases pending with
  | nothing =>
    cases hfinish
    exact nofun
  | rule location seen => cases hfinish
  | atRule name location seen =>
    cases hfinish
    refine isReadable_cons hnodes (fun hnode => ?_) fun _ => nofun
    rw [isReprintable, Bool.and_eq_true, Bool.and_eq_true, Bool.not_eq_true',
      Bool.not_eq_true', decide_eq_false_iff_not] at hnode
    rw [IsReadable]
    exact ⟨hnode.1.1, h.readsParams_end hnode.1.2 hnode.2⟩
  | declaration seen =>
    obtain ⟨d, hread, hd⟩ := except_bind_ok hfinish
    cases hd
    obtain ⟨hlevel, hcurly, hsemicolon, rfl, -⟩ := h
    refine isReadable_cons hnodes (fun hnode => ?_) fun _ => nofun
    rw [← append_nil seen.reverse] at hread
    exact Pending.IsRun.isReadable_declaration
      (hlevel.run fun c hc => hcurly c (mem_reverse.1 hc)) hlevel.ends hsemicolon (.inl rfl)
      hread hnode

mutual

theorem areReadable_of_parseBlock : ∀ {c : Component} {outer : Option Bracket} {cs : List Component}
    {q : List Char} {nodes : List Node}, Level outer (c :: cs) q → c.isCurly = true →
      parseBlock c = .ok nodes → areReprintable nodes = true → AreReadable nodes
  | .leaf l, _, _, _, _ => fun _ hc => nomatch hc
  | .block l b body stop close, _, cs, q, _ => fun h hc hparse hnodes => by
    cases b with
    | curly =>
      rw [parseBlock] at hparse
      have hrun : Pending.nothing.IsRun false body (close ++ (textOf cs ++ q)) := h.body
      exact areReadable_iff.2 (isReadable_of_parseNodes hrun hparse hnodes)
    | _ => cases hc

/-- **What is read of a level is read back.** -/
theorem isReadable_of_parseNodes : ∀ {cs : List Component} {top : Bool} {stop : Location}
    {pending : Pending} {q : List Char} {nodes : List Node}, pending.IsRun top cs q →
      parseNodes top stop pending cs = .ok nodes → areReprintable nodes = true →
        ∀ node ∈ nodes, node.IsReadable top
  | [], top, stop, pending, q, nodes => fun h hparse hnodes => by
    rw [parseNodes] at hparse
    exact isReadable_of_finish h hparse hnodes
  | c :: cs, top, stop, pending, q, nodes => fun h hparse hnodes => by
    have htail : Pending.nothing.IsRun top cs q := h.level.tail
    cases htakes : pending.takes c with
    | true =>
      rw [parseNodes_push htakes] at hparse
      exact isReadable_of_parseNodes (h.push htakes) hparse hnodes
    | false =>
    cases pending with
    | nothing =>
      cases hcomment : c.isComment with
      | true =>
        obtain ⟨text, htoken⟩ := isComment_iff.1 hcomment
        rw [parseNodes_comment htoken] at hparse
        obtain ⟨rest, hrest, rfl⟩ := except_map_ok hparse
        refine isReadable_cons hnodes (fun _ => ?_) (isReadable_of_parseNodes htail hrest)
        rw [IsReadable]
        exact not_isInfix_of_comment h.level.mem_cut htoken
      | false =>
        cases hc : c.isCurly with
        | true =>
          obtain ⟨e, he⟩ := @parseNodes_nothing_curly top stop c cs hc hcomment
          rw [he] at hparse
          cases hparse
        | false =>
          rw [parseNodes_start hcomment hc] at hparse
          exact isReadable_of_parseNodes (.start h hc) hparse hnodes
    | rule location seen =>
      have hc : c.isCurly = true := by simpa [Pending.takes] using htakes
      cases hempty : (preludeText seen).isEmpty with
      | true =>
        obtain ⟨e, he⟩ := @parseNodes_rule_empty top stop location c cs seen hc hempty
        rw [he] at hparse
        cases hparse
      | false =>
        rw [parseNodes_rule_body hc hempty] at hparse
        obtain ⟨body, hbody, hparse⟩ := except_bind_ok hparse
        obtain ⟨rest, hrest, rfl⟩ := except_map_ok hparse
        refine isReadable_cons hnodes (fun hnode => ?_) (isReadable_of_parseNodes htail hrest)
        rw [isReprintable, Bool.and_eq_true, Bool.not_eq_true'] at hnode
        rw [IsReadable]
        exact ⟨h.readsSelector hc hnode.1 hempty,
          areReadable_of_parseBlock h.level hc hbody hnode.2⟩
    | atRule name location seen =>
      cases hc : c.isCurly with
      | true =>
        rw [parseNodes_atRule_body hc] at hparse
        obtain ⟨body, hbody, hparse⟩ := except_bind_ok hparse
        obtain ⟨rest, hrest, rfl⟩ := except_map_ok hparse
        refine isReadable_cons hnodes (fun hnode => ?_) (isReadable_of_parseNodes htail hrest)
        rw [isReprintable, Bool.and_eq_true, Bool.and_eq_true, Bool.not_eq_true'] at hnode
        rw [IsReadable]
        exact ⟨hnode.1.1, h.readsParams (.inl hc) hnode.1.2,
          areReadable_of_parseBlock h.level hc hbody hnode.2⟩
      | false =>
        have hs : c.isSemicolon = true := by simpa [Pending.takes, hc] using htakes
        rw [parseNodes_atRule_end hc hs] at hparse
        obtain ⟨rest, hrest, rfl⟩ := except_map_ok hparse
        refine isReadable_cons hnodes (fun hnode => ?_) (isReadable_of_parseNodes htail hrest)
        rw [isReprintable, Bool.and_eq_true, Bool.and_eq_true, Bool.not_eq_true'] at hnode
        rw [IsReadable]
        exact ⟨hnode.1.1, h.readsParams (.inr hs) hnode.1.2⟩
    | declaration seen =>
      have hs : c.isSemicolon = true := by simpa [Pending.takes] using htakes
      rw [parseNodes_declaration_end hs] at hparse
      obtain ⟨d, hread, hparse⟩ := except_bind_ok hparse
      obtain ⟨rest, hrest, rfl⟩ := except_map_ok hparse
      have hend := h.level.endsToken (.inr hs)
      obtain ⟨hlevel, hcurly, hsemicolon, rfl, -⟩ := h
      refine isReadable_cons hnodes (fun hnode => ?_) (isReadable_of_parseNodes htail hrest)
      rw [reverse_cons] at hread
      exact Pending.IsRun.isReadable_declaration
        (hlevel.run fun c hc => hcurly c (mem_reverse.1 hc)) hend hsemicolon
        (.inr ⟨c, rfl, hs⟩) hread hnode

end

/-! ## Stylesheets -/

/-- A text without the tokens that are changed when something else follows: all its tokens are tidy,
the last one is whole, and no round or square bracket is open at the end. -/
structure IsTidy (s : List Char) : Prop where
  tokens : ∀ l ∈ Lexeme.cut s, l.isTidy = true
  whole : Lexeme.cut (s ++ [';']) = Lexeme.cut s ++ Lexeme.cut [';']
  closed : ∀ b ∈ Component.openAtEnd (Lexeme.cut s), b = .curly

theorem IsTidy.level {s : List Char} (h : IsTidy s) :
    Level none (group .nowhere (cut s)) [';'] := by
  have hne : ∀ l ∈ cut s, l.text ≠ [] := fun l hl => text_ne_nil_of_mem_cut hl
  have hflat := flatOf_group .nowhere hne
  refine ⟨?_, fitsOpen_group .nowhere hne h.closed, ?_, endsToken_semicolon []⟩
  · rw [← flatMap_text_flatOf, hflat, flatMap_text_cut, h.whole]
  · rw [hflat]
    exact h.tokens

theorem areReprintable_bareNodes (nodes : List Node) :
    areReprintable (bareNodes nodes) = areReprintable nodes := by
  induction nodes using nodes_induct with
  | nil => rfl
  | rule _ _ _ ihbody ih | group _ _ _ ihbody ih =>
    simp only [bareNodes, bare, areReprintable, isReprintable, ihbody, ih]
  | statement _ _ ih | declaration _ _ ih | comment _ _ _ ih =>
    simp only [bareNodes, bare, areReprintable, isReprintable, ih]

theorem Stylesheet.isReadable_of_parse {filename : Option String} {text : String}
    {sheet : Stylesheet} (htext : IsTidy text.toList)
    (hparse : Stylesheet.parse filename text = .ok sheet)
    (hsheet : areReprintable sheet.nodes = true) :
    ∀ node ∈ bareNodes sheet.nodes, node.IsReadable true := by
  have hbare := Stylesheet.parse_bare filename text
  rw [hparse] at hbare
  have hrun : Pending.nothing.IsRun true (group .nowhere (cut text.toList)) [';'] := htext.level
  cases hnodes : parseNodes true .nowhere .nothing (group .nowhere (cut text.toList)) with
  | error e =>
    rw [hnodes] at hbare
    cases hbare
  | ok nodes =>
    rw [hnodes] at hbare
    obtain rfl : bareNodes sheet.nodes = nodes := Option.some.inj hbare
    apply isReadable_of_parseNodes hrun hnodes
    rw [areReprintable_bareNodes]
    exact hsheet

/-- **Printing what was read from a tidy text, reading it and printing it again gives the same
text**, and the same nodes are read. -/
theorem Stylesheet.render_parse_render {filename : Option String} {text : String}
    {sheet : Stylesheet} (htext : IsTidy text.toList)
    (hparse : Stylesheet.parse filename text = .ok sheet)
    (hsheet : areReprintable sheet.nodes = true) :
    ∃ again, Stylesheet.parse filename sheet.render = .ok again ∧
      bareNodes again.nodes = bareNodes sheet.nodes ∧ again.render = sheet.render := by
  obtain ⟨bare, hbare⟩ : ∃ bare : Stylesheet, bare.nodes = bareNodes sheet.nodes :=
    ⟨⟨bareNodes sheet.nodes, none, 0⟩, rfl⟩
  have hsame : bareNodes bare.nodes = bareNodes sheet.nodes := by
    rw [hbare, bareNodes_bareNodes]
  have hreadable := Stylesheet.isReadable_of_parse htext hparse hsheet
  rw [← hbare] at hreadable
  obtain ⟨again, hagain, hnodes⟩ := Stylesheet.parse_render_of_isReadable hreadable filename
  rw [Stylesheet.render_bare hsame] at hagain
  have hnodes : bareNodes again.nodes = bareNodes sheet.nodes := hnodes.trans hsame
  exact ⟨again, hagain, hnodes, Stylesheet.render_bare hnodes⟩

/-- A text with comments in preludes, an escape before a body, a priority in capitals, no semicolon
behind the last declaration, and two bodies that are open at its end. -/
def openSheetText : String :=
  "@media/*m*/screen /*n*/\x7b.\\31 \x7bcolor:red! IMPORTANT;i:hover\x7b--x:\x7dwidth:calc(1px + 2px)/*w*/"

theorem openSheetText_render_parse_render : IsTidy openSheetText.toList ∧
    ∃ sheet again, Stylesheet.parse none openSheetText = .ok sheet ∧
      areReprintable sheet.nodes = true ∧ Stylesheet.parse none sheet.render = .ok again ∧
        bareNodes again.nodes = bareNodes sheet.nodes ∧ again.render = sheet.render := by
  have htidy : IsTidy openSheetText.toList :=
    ⟨by decide +kernel, by decide +kernel, by decide +kernel⟩
  have hnodes : (Stylesheet.parse none openSheetText).toOption.map
      (fun sheet => areReprintable sheet.nodes) = some true := by
    decide +kernel
  refine ⟨htidy, ?_⟩
  cases hparse : Stylesheet.parse none openSheetText with
  | error e =>
    rw [hparse] at hnodes
    cases hnodes
  | ok sheet =>
    rw [hparse] at hnodes
    have hsheet : areReprintable sheet.nodes = true := Option.some.inj hnodes
    obtain ⟨again, hagain⟩ := Stylesheet.render_parse_render htidy hparse hsheet
    exact ⟨sheet, again, rfl, hsheet, hagain⟩

/-- A comment at the end of an at-rule is kept at the end of the text, and lost before the semicolon
that printing writes. -/
theorem render_parse_render_ne :
    (Stylesheet.parse none "@a b /*c*/").toOption.map Stylesheet.render = some "@a b /*c*/;\n" ∧
    (Stylesheet.parse none "@a b /*c*/;\n").toOption.map Stylesheet.render = some "@a b;\n" := by
  decide +kernel

end StyleBlocks
