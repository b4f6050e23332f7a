import StyleBlocks.Proofs.Stylesheet.Written

/-!
# Printed statements are read back

Each kind of node is read back from its characters if its texts are fragments that stand in the right
place (`Node.IsReadable`): a selector begins with a token that begins a statement, nothing that is
skipped stands at the end of a prelude, and a value that is not important does not end as if it were.

* `Stylesheet.parse_render_of_isReadable`: **a whole stylesheet.**
-/

namespace StyleBlocks

open Component List

variable {c : Component} {raw s v w : List Char} {head : AtHead} {top : Bool} {cs : List Component}
  {x : List Char}

/-! ## Runs of components -/

section

theorem parseNodes_append {stop : Location} {pending : Pending}
    (h : ∀ c ∈ cs, pending.takes c = true) (rest : List Component) :
    parseNodes top stop pending (cs ++ rest) = parseNodes top stop (pending.push cs) rest := by
  induction cs generalizing pending with
  | nil => cases pending <;> rfl
  | cons c cs ih =>
    have htakes : ∀ d, (pending.push [c]).takes d = pending.takes d := by
      cases pending <;> exact fun _ => rfl
    rw [cons_append, parseNodes_push (h c (by simp)), ih fun d hd => ?_]
    · cases pending <;> simp [Pending.push]
    · rw [htakes]
      exact h d (by simp [hd])

theorem startsRule_append (h : ∀ c ∈ cs, c.isCurly = false) (hs : ∀ c ∈ cs, c.isSemicolon = false)
    (rest : List Component) : startsRule (cs ++ rest) = startsRule rest := by
  induction cs with
  | nil => rfl
  | cons c cs ih =>
    rw [cons_append, startsRule, h c (by simp), hs c (by simp), if_neg Bool.false_ne_true,
      if_neg Bool.false_ne_true,
      ih (fun d hd => h d (by simp [hd])) (fun d hd => hs d (by simp [hd]))]

end

/-- A token with which a rule or a declaration may begin. -/
def Token.beginsStatement : Token → Bool
  | .space _ | .semicolon | .comment _ | .atKeyword _ => false
  | _ => true

theorem Pending.start_of_beginsStatement (h : c.token.beginsStatement = true) (top : Bool)
    (cs : List Component) : Pending.start top c cs
      = if top || startsRule (c :: cs) then .rule c.location [c] else .declaration [c] := by
  unfold Pending.start
  cases htoken : c.token with
  | space | semicolon | comment | atKeyword =>
    rw [htoken] at h
    cases h
  | _ => rfl

theorem isComment_of_beginsStatement (h : c.token.beginsStatement = true) :
    c.isComment = false := by
  rw [isComment]
  cases htoken : c.token with
  | comment =>
    rw [htoken] at h
    cases h
  | _ => rfl

theorem isFiller_of_beginsStatement (h : c.token.beginsStatement = true) : c.isFiller = false := by
  rw [isFiller]
  cases htoken : c.token with
  | space | comment =>
    rw [htoken] at h
    cases h
  | _ => rfl

theorem isSemicolon_of_beginsStatement (h : c.token.beginsStatement = true) :
    c.isSemicolon = false := by
  rw [isSemicolon, beq_eq_false_iff_ne]
  intro htoken
  rw [htoken] at h
  cases h

theorem location_of_cut {ls : List Lexeme} (h : Lexeme.cut s = flatOf (c :: cs) ++ ls) :
    c.location = .nowhere := by
  apply Lexeme.location_of_mem_cut (s := s)
  rw [h, flatOf]
  cases c <;> simp [flat, lexeme]

/-! ## Rules -/

/-- **A selector before a block is read as a rule.** -/
theorem IsReadAs.rule {x block : List Char} {body : List Node}
    (h : Fragment (levelBracket top) x cs) (hx : IsTrimmed x) (hne : x ≠ [])
    (hhead : ∃ c cs', cs = c :: cs' ∧ c.token.beginsStatement = true)
    (hlast : ∀ c, cs.getLast? = some c → c.isFiller = false)
    (hsemicolon : top = false → ∀ c ∈ cs, c.isSemicolon = false)
    (hblock : IsBlockOf ('\x7b' :: block) body) :
    IsReadAs top (x ++ ' ' :: '\x7b' :: block) [.rule ⟨0, String.ofList x, .nowhere⟩ body] := by
  intro v
  obtain ⟨b, hcutb, hcurlyb, hfitsb, hbody⟩ := hblock v
  have hend : EndsToken ('\x7b' :: (block ++ v)) :=
    endsToken_cons (stop_of_mem (by simp)) (by decide) _
  obtain ⟨ds, hspaced, hcut⟩ := h.cut_space hend (by simp [isSpace, isNewline])
  obtain ⟨c, cs', hcs, hc⟩ := hhead
  obtain ⟨d, ds', rfl, htoken⟩ := hspaced.head hcs
  rw [← htoken] at hc
  have hprelude : preludeText ([] ++ d :: ds').reverse = String.ofList x :=
    Fragment.preludeText_append [] hx (by simp [textOf]) hlast (by rw [hcs]; simp)
      h.textOf (.inr hspaced)
  have hcurly := hspaced.curly h.curly
  have hstarts : ∀ rest, (top || startsRule (d :: (ds' ++ b :: rest))) = true := by
    intro rest
    cases top with
    | true => rfl
    | false =>
      rw [Bool.false_or, ← cons_append,
        startsRule_append hcurly (hspaced.semicolon (hsemicolon rfl)), startsRule, hcurlyb, if_pos rfl]
  refine ⟨d :: ds' ++ [b], ?_, ?_, fun rest => ?_⟩
  · have htext : x ++ ' ' :: '\x7b' :: block ++ v = x ++ ' ' :: '\x7b' :: (block ++ v) := by simp
    rw [htext, hcut, flatOf_append, flatOf_singleton, append_assoc, ← hcutb, cons_append]
  · rw [allFit_append, allFit_singleton]
    exact ⟨hspaced.fits h.fits, hfitsb _⟩
  have hempty : (preludeText (ds'.reverse ++ [d])).isEmpty = false := by
    rw [nil_append, reverse_cons] at hprelude
    rw [hprelude]
    simp [hne]
  rw [append_assoc, cons_append,
    parseNodes_start (isComment_of_beginsStatement hc) (hcurly d (by simp)),
    Pending.start_of_beginsStatement hc, singleton_append, hstarts, if_pos rfl,
    parseNodes_append fun e he => by simp [Pending.takes, hcurly e (by simp [he])], Pending.push,
    parseNodes_rule_body hcurlyb hempty, hbody]
  rw [nil_append, reverse_cons] at hprelude
  rw [hprelude, location_of_cut hcut]
  rfl

/-! ## At-rules -/

/-- What follows the name of an at-rule is nothing, or is read back. -/
def ReadsParams (top : Bool) (x : List Char) : Prop :=
  x ≠ [] → ∃ cs, Fragment (levelBracket top) x cs ∧ IsTrimmed x ∧
    (∀ c ∈ cs, c.isSemicolon = false) ∧ ∀ c, cs.getLast? = some c → c.isFiller = false

def atLeaf (name : String) : Component :=
  .leaf ⟨.atKeyword name, '@' :: name.toList, .nowhere⟩

theorem cut_at {name : String} (h : isIdentifier name = true) (hv : EndsName v) :
    Lexeme.cut ('@' :: (name.toList ++ v)) = (atLeaf name).flat ++ Lexeme.cut v := by
  obtain ⟨hstart, hall⟩ := isIdentifier_iff.1 h
  have hread : Token.read '@' (name.toList ++ v) = (.atKeyword name, v) := by
    have hat : Token.read '@' (name.toList ++ v) = readAt (name.toList ++ v) := rfl
    rw [hat, readAt, startsIdent_append hstart hall, if_pos rfl, readName_append_of_endsName hall hv,
      String.ofList_toList]
  exact Lexeme.cut_cons hread rfl

theorem endsName_space (v : List Char) : EndsName (' ' :: v) :=
  (endsToken_cons (stop_of_isSpace rfl) (by decide) v).endsName

def semicolonLeaf : Component :=
  .leaf ⟨.semicolon, [';'], .nowhere⟩

theorem head?_ne_isSpace (h : IsTrimmed x) (hne : x ≠ []) (v : List Char) :
    ∀ c, (x ++ v).head? = some c → isSpace c = false := by
  obtain ⟨d, x, rfl⟩ := exists_cons_of_ne_nil hne
  intro c hc
  cases hc
  cases hs : isSpace d with
  | false => rfl
  | true =>
    have hblank := isBlank_of_isSpace hs
    rw [h.head d rfl] at hblank
    cases hblank

theorem cut_space_append (h : IsTrimmed x) (hne : x ≠ []) (v : List Char) :
    Lexeme.cut (' ' :: (x ++ v)) = (spaceLeaf [' ']).flat ++ Lexeme.cut (x ++ v) := by
  have hcut : Lexeme.cut ([' '] ++ (x ++ v)) = _ :=
    Lexeme.cut_spaces (by simp) (by simp [isSpace]) (head?_ne_isSpace h hne v)
  exact hcut

def paramsText (x : List Char) : List Char :=
  if x = [] then [] else ' ' :: x

theorem AtHead.toList_render (head : AtHead) :
    head.render.toList = '@' :: (head.name.toList ++ paramsText head.params.toList) := by
  unfold AtHead.render paramsText
  by_cases h : head.params = ""
  · rw [h]
    simp
  · have hne : head.params.toList ≠ [] := by simpa using h
    rw [if_neg (by simpa using h), if_neg hne]
    simp

theorem endsName_paramsText (hv : EndsName v) (x : List Char) : EndsName (paramsText x ++ v) := by
  unfold paramsText
  split
  · exact hv
  · exact endsName_space _

/-- Components behind the name of an at-rule whose text is `x`. -/
structure ParamsRun (top : Bool) (x : List Char) (ds : List Component) : Prop
    extends PlainRun (levelBracket top) ds where
  text : preludeText ds.reverse = String.ofList x

section

theorem Fragment.paramsRun (h : Fragment (levelBracket top) x cs) (hx : IsTrimmed x) (hne : x ≠ [])
    (hsemicolon : ∀ c ∈ cs, c.isSemicolon = false)
    (hlast : ∀ c, cs.getLast? = some c → c.isFiller = false) {ds : List Component}
    (hds : ds = cs ∨ Spaced cs ds) : ParamsRun top x (spaceLeaf [' '] :: ds) := by
  have hrun : PlainRun (levelBracket top) ds := by
    rcases hds with rfl | hspaced
    · exact h.plainRun hsemicolon
    · exact (h.plainRun hsemicolon).spaced hspaced
  refine ⟨(PlainRun.spaces [' ']).append hrun, ?_⟩
  exact Fragment.preludeText_append [spaceLeaf [' ']] hx
    (by simp [Component.textOf, Component.text, spaceLeaf, isBlank_of_isSpace, isSpace]) hlast
    (h.ne_nil hne) h.textOf hds

theorem ReadsParams.cut_semicolon (h : ReadsParams top x) (v : List Char) : ∃ ds,
    Lexeme.cut (paramsText x ++ ';' :: v) = flatOf ds ++ Lexeme.cut (';' :: v) ∧
      ParamsRun top x ds := by
  by_cases hne : x = []
  · subst hne
    exact ⟨[], rfl, .nil, rfl⟩
  obtain ⟨cs, h, hx, hsemicolon, hlast⟩ := h hne
  refine ⟨_, ?_, h.paramsRun hx hne hsemicolon hlast (.inl rfl)⟩
  rw [paramsText, if_neg hne, cons_append, cut_space_append hx hne, h.cut_semicolon,
    flatOf, append_assoc]

theorem ReadsParams.cut_space (h : ReadsParams top x) (v : List Char) : ∃ ds,
    Lexeme.cut (paramsText x ++ ' ' :: '\x7b' :: v)
      = flatOf ds ++ Lexeme.cut ('\x7b' :: v) ∧ ParamsRun top x ds := by
  have hhead : ∀ b, ('\x7b' :: v).head? = some b → isSpace b = false := by
    simp [isSpace, isNewline]
  by_cases hne : x = []
  · subst hne
    refine ⟨[spaceLeaf [' ']], ?_, .spaces [' '], rfl⟩
    have hcut : Lexeme.cut ([' '] ++ '\x7b' :: v) = _ :=
      Lexeme.cut_spaces (by simp) (by simp [isSpace]) hhead
    exact hcut
  obtain ⟨cs, h, hx, hsemicolon, hlast⟩ := h hne
  have hend : EndsToken ('\x7b' :: v) := endsToken_cons (stop_of_mem (by simp)) (by decide) _
  obtain ⟨ds, hspaced, hcut⟩ := h.cut_space hend hhead
  refine ⟨_, ?_, h.paramsRun hx hne hsemicolon hlast (.inr hspaced)⟩
  rw [paramsText, if_neg hne, cons_append, cut_space_append hx hne, hcut, flatOf, append_assoc]

end

theorem AtHead.read {u u' : List Char} {ds : List Component} (hname : isIdentifier head.name = true)
    (hu : EndsName u)
    (hcut : Lexeme.cut (paramsText head.params.toList ++ u) = flatOf ds ++ Lexeme.cut u')
    (hds : ParamsRun top head.params.toList ds) :
    Lexeme.cut (head.render.toList ++ u) = flatOf (atLeaf head.name :: ds) ++ Lexeme.cut u' ∧
      AllFit (levelBracket top) (atLeaf head.name :: ds) ∧ ∀ rest,
        parseNodes top .nowhere .nothing (atLeaf head.name :: ds ++ rest)
          = parseNodes top .nowhere (.atRule head.name .nowhere ds.reverse) rest := by
  refine ⟨?_, ?_, fun rest => ?_⟩
  · rw [head.toList_render, cons_append, append_assoc, cut_at hname (endsName_paramsText hu _), hcut,
      flatOf, append_assoc]
  · rw [AllFit]
    exact ⟨fits_leaf rfl rfl, hds.fits⟩
  · show parseNodes top .nowhere (.atRule head.name .nowhere []) (ds ++ rest) = _
    rw [parseNodes_append fun c hc => by
      simp [Pending.takes, hds.curly c hc, hds.semicolon c hc], Pending.push, append_nil]

theorem IsReadAs.statement (hname : isIdentifier head.name = true)
    (hparams : ReadsParams top head.params.toList) : IsReadAs top (head.render.toList ++ [';'])
      [.statement ⟨head.name, head.params, .nowhere⟩] := by
  intro v
  obtain ⟨ds, hcut, hds⟩ := hparams.cut_semicolon v
  obtain ⟨hcut, hfits, hparse⟩ := AtHead.read hname (endsToken_semicolon v).endsName hcut hds
  refine ⟨atLeaf head.name :: ds ++ [semicolonLeaf], ?_,
    allFit_append.2 ⟨hfits, allFit_singleton.2 (fits_leaf rfl rfl)⟩, fun rest => ?_⟩
  · rw [append_assoc, singleton_append, hcut, Lexeme.cut_semicolon, flatOf_append, append_assoc]
    rfl
  · rw [append_assoc, hparse, singleton_append, parseNodes_atRule_end rfl rfl, hds.text,
      String.ofList_toList]
    rfl

theorem IsReadAs.group {block : List Char} {body : List Node}
    (hname : isIdentifier head.name = true) (hparams : ReadsParams top head.params.toList)
    (hblock : IsBlockOf ('\x7b' :: block) body) :
    IsReadAs top (head.render.toList ++ ' ' :: '\x7b' :: block)
      [.group ⟨head.name, head.params, .nowhere⟩ body] := by
  intro v
  obtain ⟨b, hcutb, hcurlyb, hfitsb, hbody⟩ := hblock v
  obtain ⟨ds, hcut, hds⟩ := hparams.cut_space (block ++ v)
  obtain ⟨hcut, hfits, hparse⟩ := AtHead.read hname (endsName_space _) hcut hds
  refine ⟨atLeaf head.name :: ds ++ [b], ?_,
    allFit_append.2 ⟨hfits, allFit_singleton.2 (hfitsb _)⟩, fun rest => ?_⟩
  · rw [append_assoc, cons_append, cons_append, hcut, ← cons_append, hcutb, flatOf_append,
      flatOf_singleton, append_assoc]
  · rw [append_assoc, hparse, singleton_append, parseNodes_atRule_body hcurlyb, hds.text, hbody,
      String.ofList_toList]
    rfl

/-! ## Declarations -/

/-- `!important`, without the exclamation mark. -/
def isImportant (s : List Char) : Bool :=
  (trim s).map Char.toLower == "important".toList

theorem splitPriority_of_not_mem (h : '!' ∉ raw) : splitPriority raw = (raw, false) := by
  unfold splitPriority
  simp [h]

theorem splitPriority_append {b : List Char} (hb : '!' ∉ b) : splitPriority (w ++ '!' :: b)
    = if isImportant b then (trimEnd w, true) else (w ++ '!' :: b, false) := by
  have hbehind : ((w ++ '!' :: b).reverse.takeWhile (· != '!')).reverse = b := by
    have hstop : ∀ a, ('!' :: w.reverse).head? = some a → (a != '!') = false := by simp
    have htake : b.reverse.takeWhile (· != '!') = b.reverse := by
      rw [takeWhile_eq_self_iff]
      intro c hc
      rw [bne_iff_ne]
      rintro rfl
      exact hb (mem_reverse.1 hc)
    rw [reverse_append, reverse_cons, append_assoc, singleton_append,
      (takeWhile_append_of_head hstop _).1, htake, reverse_reverse]
  have hlen : (w ++ '!' :: b).length - b.length - 1 = w.length := by
    rw [length_append, length_cons]
    omega
  have hcontains : (w ++ '!' :: b).contains '!' = true := by simp
  unfold splitPriority isImportant
  dsimp only
  rw [hbehind, hlen, hcontains, Bool.true_and, take_left]

/-- What follows the colon of a declaration is nothing, or is read back. -/
def ReadsValue (x : List Char) : Prop :=
  x ≠ [] → ∃ cs, Fragment (some .curly) x cs ∧ IsTrimmed x ∧ ∀ c ∈ cs, c.isSemicolon = false

/-- Components behind the colon of a declaration that give its value. -/
structure ValueRun (value : String) (important : Bool) (vs : List Component) : Prop
    extends PlainRun (some .curly) vs where
  value : valueOf vs = (value, important)

def importantRun : List Component :=
  [.leaf ⟨.delim '!', ['!'], .nowhere⟩, .leaf ⟨.ident "important", "important".toList, .nowhere⟩]

theorem cut_important (v : List Char) :
    Lexeme.cut ('!' :: ("important".toList ++ ';' :: v))
      = flatOf importantRun ++ Lexeme.cut (';' :: v) := by
  have hfollows : Follows (';' :: v) :=
    ⟨(endsToken_semicolon v).endsName, by simp, by simp⟩
  rw [Lexeme.cut_mark (t := .delim '!') (fun _ => rfl),
    Lexeme.cut_writes (writes_identifier (by decide +kernel)) hfollows]
  rfl

theorem plainRun_important (outer : Option Bracket) : PlainRun outer importantRun := by
  have hmark : PlainRun outer [.leaf ⟨.delim '!', ['!'], .nowhere⟩] := .leaf rfl rfl nofun
  have hword : PlainRun outer [.leaf ⟨.ident "important", "important".toList, .nowhere⟩] :=
    .leaf rfl rfl nofun
  exact hmark.append hword

theorem splitPriority_important (hx : IsTrimmed x) :
    splitPriority (x ++ ' ' :: '!' :: "important".toList) = (x, true) := by
  have hsplit := splitPriority_append (w := x ++ [' ']) (b := "important".toList) (by decide)
  rw [if_pos (by decide), trimEnd_append hx.last (by simp [isBlank_of_isSpace, isSpace]),
    append_assoc] at hsplit
  exact hsplit

section

variable {d : Declaration}

theorem toList_writtenValue (h : d.important = true) :
    d.writtenValue.toList = d.value.toList ++ ' ' :: '!' :: "important".toList := by
  rw [Declaration.writtenValue, if_pos h, String.toList_append]
  rfl

theorem valueOf_of_textOf {vs : List Component} {value : String} {important : Bool}
    (hraw : IsTrimmed raw) (htext : textOf vs = ' ' :: raw)
    (hsplit : splitPriority raw = (value.toList, important)) : valueOf vs = (value, important) := by
  have hblank : ∀ c ∈ [' '], isBlank c = true := by simp [isBlank_of_isSpace, isSpace]
  have htrim := @trim_append raw [' '] [] hraw hblank (by simp)
  rw [append_nil, singleton_append] at htrim
  rw [valueOf, htext, htrim, hsplit]
  simp

def ValueIsCut (d : Declaration) (v : List Char) : Prop :=
  ∃ vs, Lexeme.cut (' ' :: (d.writtenValue.toList ++ ';' :: v))
    = flatOf vs ++ Lexeme.cut (';' :: v) ∧ ValueRun d.value d.important vs

theorem ReadsValue.valueIsCut_plain (h : ReadsValue d.value.toList) (hd : d.important = false)
    (hplain : splitPriority d.value.toList = (d.value.toList, false)) (v : List Char) :
    ValueIsCut d v := by
  have hwritten : d.writtenValue = d.value := by
    rw [Declaration.writtenValue, hd, if_neg Bool.false_ne_true]
  rw [ValueIsCut, hwritten, hd]
  by_cases hne : d.value.toList = []
  · have hcut : Lexeme.cut ([' '] ++ ';' :: v) = _ :=
      Lexeme.cut_spaces (by simp) (by simp [isSpace]) (by simp [isSpace, isNewline])
    rw [hne] at hplain ⊢
    exact ⟨[spaceLeaf [' ']], hcut, .spaces [' '],
      valueOf_of_textOf isTrimmed_nil rfl (by rw [hne, hplain])⟩
  obtain ⟨cs, hfragment, hx, hsemicolon⟩ := h hne
  refine ⟨spaceLeaf [' '] :: cs, ?_, (PlainRun.spaces [' ']).append (hfragment.plainRun hsemicolon),
    valueOf_of_textOf hx ?_ hplain⟩
  · rw [cut_space_append hx hne, hfragment.cut_semicolon, flatOf, append_assoc]
  · rw [textOf, hfragment.textOf]
    rfl

theorem ReadsValue.valueIsCut_important (h : ReadsValue d.value.toList) (hd : d.important = true)
    (v : List Char) : ValueIsCut d v := by
  rw [ValueIsCut, toList_writtenValue hd, hd]
  have hend : EndsToken ('!' :: ("important".toList ++ ';' :: v)) := by
    refine ⟨by simp, fun a ha => ?_, by simp⟩
    cases ha
    exact stop_of_mem (by simp)
  have hhead : ∀ c, ('!' :: ("important".toList ++ ';' :: v)).head? = some c →
      isSpace c = false := by
    simp [isSpace, isNewline]
  by_cases hne : d.value.toList = []
  · have hcut : Lexeme.cut ([' ', ' '] ++ '!' :: ("important".toList ++ ';' :: v)) = _ :=
      Lexeme.cut_spaces (by simp) (by simp [isSpace]) hhead
    refine ⟨spaceLeaf [' ', ' '] :: importantRun, ?_,
      (PlainRun.spaces [' ', ' ']).append (plainRun_important _), ?_⟩
    · have htext : ' ' :: ((d.value.toList ++ ' ' :: '!' :: "important".toList) ++ ';' :: v)
          = [' ', ' '] ++ '!' :: ("important".toList ++ ';' :: v) := by simp [hne]
      rw [htext, hcut, cut_important]
      rfl
    · have hempty : d.value = "" := by simpa using hne
      rw [hempty]
      rfl
  · obtain ⟨cs, hfragment, hx, hsemicolon⟩ := h hne
    obtain ⟨ds, hspaced, hcut⟩ := hfragment.cut_space hend hhead
    refine ⟨spaceLeaf [' '] :: (ds ++ importantRun), ?_, (PlainRun.spaces [' ']).append
      (((hfragment.plainRun hsemicolon).spaced hspaced).append (plainRun_important _)),
      @valueOf_of_textOf (d.value.toList ++ ' ' :: '!' :: "important".toList) _ _ _ ?_ ?_
        (splitPriority_important hx)⟩
    · have htext : ' ' :: ((d.value.toList ++ ' ' :: '!' :: "important".toList) ++ ';' :: v)
          = ' ' :: (d.value.toList ++ ' ' :: '!' :: ("important".toList ++ ';' :: v)) := by simp
      rw [htext, cut_space_append hx hne, hcut, cut_important, flatOf, flatOf_append]
      simp
    · refine ⟨fun c hc => hx.head c ?_, fun c hc => ?_⟩
      · rwa [head?_append_of_ne_nil _ hne] at hc
      · rw [getLast?_append_of_ne_nil _ (by simp)] at hc
        cases hc
        decide
    · have hrun : textOf importantRun = '!' :: "important".toList := rfl
      rw [textOf, textOf_append, hspaced.textOf, hfragment.textOf, hrun, append_assoc]
      rfl

theorem ReadsValue.valueIsCut (h : ReadsValue d.value.toList)
    (hplain : d.important = false → splitPriority d.value.toList = (d.value.toList, false))
    (v : List Char) : ValueIsCut d v := by
  cases hd : d.important with
  | false => exact h.valueIsCut_plain hd (hplain hd) v
  | true => exact h.valueIsCut_important hd v

theorem IsReadAs.declaration (hname : isIdentifier d.property = true)
    (h : ReadsValue d.value.toList)
    (hplain : d.important = false → splitPriority d.value.toList = (d.value.toList, false)) :
    IsReadAs false (d.property.toList ++ ':' :: ' ' :: (d.writtenValue.toList ++ [';']))
      [.declaration d.bare] := by
  intro v
  obtain ⟨vs, hcut, hvs⟩ := h.valueIsCut hplain v
  obtain ⟨colon, hcolon⟩ : ∃ c : Component, c = .leaf ⟨.colon, [':'], .nowhere⟩ := ⟨_, rfl⟩
  obtain ⟨first, hfirst⟩ : ∃ c : Component,
    c = .leaf ⟨.ident d.property, d.property.toList, .nowhere⟩ := ⟨_, rfl⟩
  have hrun : PlainRun (some .curly) (first :: colon :: vs) := by
    have hcolon' : PlainRun (some .curly) [colon] := hcolon ▸ .leaf rfl rfl nofun
    have hfirst' : PlainRun (some .curly) [first] := hfirst ▸ .leaf rfl rfl nofun
    exact hfirst'.append (hcolon'.append hvs.toPlainRun)
  refine ⟨first :: colon :: vs ++ [semicolonLeaf], ?_,
    allFit_append.2 ⟨hrun.fits, allFit_singleton.2 (fits_leaf rfl rfl)⟩,
    fun rest => ?_⟩
  · have htext : d.property.toList ++ ':' :: ' ' :: (d.writtenValue.toList ++ [';']) ++ v
        = d.property.toList ++ ':' :: ' ' :: (d.writtenValue.toList ++ ';' :: v) := by simp
    rw [htext, Lexeme.cut_writes (writes_identifier hname) (follows_mark (by simp) _),
      Lexeme.cut_mark (t := .colon) (fun _ => rfl), hcut, Lexeme.cut_semicolon, hfirst, hcolon,
      semicolonLeaf]
    simp [flatOf, flat, flatOf_append]
  · have hbegins : first.token.beginsStatement = true := by rw [hfirst]; rfl
    have hrule : startsRule (first :: (colon :: vs ++ semicolonLeaf :: rest)) = false := by
      rw [← cons_append, startsRule_append hrun.curly hrun.semicolon]
      rfl
    have hsemicolon : ∀ c ∈ colon :: vs, c.isSemicolon = false :=
      fun c hc => hrun.semicolon c (mem_cons_of_mem _ hc)
    have hread : readDeclaration .nowhere (first :: (colon :: vs ++ [semicolonLeaf]))
        = .ok d.bare := by
      rw [readDeclaration_eq_ok_iff]
      refine ⟨first, _, d.property, colon, vs ++ [semicolonLeaf], rfl, ?_, ?_, ?_, ?_⟩
      · rw [hfirst]
        rfl
      · rw [hcolon]
        rfl
      · rw [hcolon]
        rfl
      · have htake : (vs ++ [semicolonLeaf]).takeWhile (!·.isSemicolon) = vs := by
          rw [takeWhile_append_of_pos fun c hc => by simp [hvs.semicolon c hc]]
          exact append_nil vs
        rw [htake, hvs.value, hfirst]
        rfl
    rw [append_assoc, cons_append,
      parseNodes_start (isComment_of_beginsStatement hbegins) (hrun.curly first (by simp)),
      Pending.start_of_beginsStatement hbegins, singleton_append, hrule, Bool.or_false,
      if_neg Bool.false_ne_true, parseNodes_append fun c hc => by
        simp [Pending.takes, hsemicolon c hc], Pending.push, parseNodes_declaration_end rfl]
    have hreverse : (semicolonLeaf :: ((colon :: vs).reverse ++ [first])).reverse
        = first :: (colon :: vs ++ [semicolonLeaf]) := by simp
    rw [hreverse, hread]
    rfl

end

/-! ## Comments -/

theorem readComment_append (h : ¬ ['*', '/'] <:+: s) (v : List Char) :
    readComment (s ++ '*' :: '/' :: v) = (s, v) := by
  induction s with
  | nil => rfl
  | cons c s ih =>
    have hs : ¬ ['*', '/'] <:+: s := fun hs => h (hs.trans (suffix_cons c s).isInfix)
    rw [cons_append, readComment_cons, ih hs]
    rintro rfl hhead
    cases s with
    | nil => exact absurd hhead (by simp)
    | cons d s =>
      obtain rfl : d = '/' := Option.some.inj hhead
      exact h ⟨[], s, rfl⟩

theorem IsReadAs.comment {text : String} (h : ¬ ['*', '/'] <:+: text.toList) :
    IsReadAs top ('/' :: '*' :: (text.toList ++ ['*', '/'])) [.comment text .nowhere] := by
  intro v
  have hread : Token.read '/' ('*' :: (text.toList ++ '*' :: '/' :: v)) = (.comment text, v) := by
    have hslash : ∀ s, Token.read '/' ('*' :: s)
        = (.comment (String.ofList (readComment s).1), (readComment s).2) := fun _ => rfl
    rw [hslash, readComment_append h, String.ofList_toList]
  refine ⟨[.leaf ⟨.comment text, '/' :: '*' :: (text.toList ++ ['*', '/']), .nowhere⟩], ?_,
    allFit_singleton.2 (fits_leaf rfl rfl), fun rest => ?_⟩
  · have htext : '/' :: '*' :: (text.toList ++ ['*', '/']) ++ v
        = '/' :: '*' :: (text.toList ++ '*' :: '/' :: v) := by simp
    rw [htext, Lexeme.cut_cons hread (w := '/' :: '*' :: (text.toList ++ ['*', '/'])) (by simp)]
    rfl
  · rw [singleton_append, parseNodes_comment rfl]
    rfl

/-! ## Nodes -/

/-- The text before the body of a rule is read back. -/
def ReadsSelector (top : Bool) (x : List Char) : Prop :=
  ∃ cs, Fragment (levelBracket top) x cs ∧ IsTrimmed x ∧ x ≠ [] ∧
    (∃ c cs', cs = c :: cs' ∧ c.token.beginsStatement = true) ∧
    (∀ c, cs.getLast? = some c → c.isFiller = false) ∧
    (top = false → ∀ c ∈ cs, c.isSemicolon = false)

mutual

/-- All texts in a node are read back, at the level where it stands. -/
def Node.IsReadable (top : Bool) : Node → Prop
  | .rule head body => ReadsSelector top head.selector.toList ∧ AreReadable body
  | .group head body =>
    isIdentifier head.name = true ∧ ReadsParams top head.params.toList ∧ AreReadable body
  | .statement head => isIdentifier head.name = true ∧ ReadsParams top head.params.toList
  | .declaration d => top = false ∧ isIdentifier d.property = true ∧ ReadsValue d.value.toList ∧
      (d.important = false → splitPriority d.value.toList = (d.value.toList, false))
  | .comment text _ => ¬ ['*', '/'] <:+: text.toList

def AreReadable : List Node → Prop
  | [] => True
  | node :: nodes => node.IsReadable false ∧ AreReadable nodes

end

theorem written_head {node : Node} (h : node.IsReadable top) (depth : Nat) :
    ∃ c w, written depth node = c :: w ∧ isSpace c = false := by
  cases node with
  | rule head body =>
    rw [Node.IsReadable] at h
    obtain ⟨⟨cs, -, hx, hne, -⟩, -⟩ := h
    obtain ⟨c, x, hcons⟩ := exists_cons_of_ne_nil hne
    have hspace := head?_ne_isSpace hx hne [] c (by rw [hcons]; rfl)
    rw [written, hcons]
    exact ⟨c, _, rfl, hspace⟩
  | group head body | statement head =>
    rw [written, head.toList_render]
    exact ⟨'@', _, rfl, by decide⟩
  | declaration d =>
    rw [Node.IsReadable] at h
    obtain ⟨-, hname, -⟩ := h
    obtain ⟨c, w, hcons⟩ := exists_cons_of_ne_nil (toList_ne_nil_of_isIdentifier hname)
    have hchar : isNameChar c = true := (isIdentifier_iff.1 hname).2 c (by rw [hcons]; simp)
    have hspace : isSpace c = false := by
      cases hs : isSpace c with
      | false => rfl
      | true =>
        rw [(stop_of_isSpace hs).name] at hchar
        cases hchar
    rw [written, hcons]
    exact ⟨c, _, rfl, hspace⟩
  | comment text location =>
    rw [written]
    exact ⟨'/', _, rfl, by decide⟩

mutual

/-- **A node whose texts are read back is read back.** -/
theorem Node.IsReadable.isReadAs {top : Bool} : ∀ {node : Node}, node.IsReadable top →
    ∀ depth, IsReadAs top (written depth node) [node.bare]
  | .rule head body => fun h depth => by
    rw [Node.IsReadable] at h
    obtain ⟨⟨cs, hfragment, hx, hne, hhead, hlast, hsemicolon⟩, hbody⟩ := h
    have hblock := (AreReadable.isReadAs hbody (depth + 1)).isBlockOf depth
    have hrule := IsReadAs.rule hfragment hx hne hhead hlast hsemicolon hblock
    rw [String.ofList_toList] at hrule
    rw [written, Node.bare]
    exact hrule
  | .group head body => fun h depth => by
    rw [Node.IsReadable] at h
    have hblock := (AreReadable.isReadAs h.2.2 (depth + 1)).isBlockOf depth
    rw [written, Node.bare]
    exact IsReadAs.group h.1 h.2.1 hblock
  | .statement head => fun h depth => by
    rw [Node.IsReadable] at h
    rw [written, Node.bare]
    exact IsReadAs.statement h.1 h.2
  | .declaration d => fun h depth => by
    rw [Node.IsReadable] at h
    obtain ⟨rfl, hname, hvalue, hplain⟩ := h
    rw [written, Node.bare]
    exact IsReadAs.declaration hname hvalue hplain
  | .comment text location => fun h depth => by
    rw [Node.IsReadable] at h
    rw [written, Node.bare]
    exact IsReadAs.comment h

theorem AreReadable.isReadAs : ∀ {nodes : List Node}, AreReadable nodes →
    ∀ depth, IsReadAs false (writtenNodes depth nodes) (bareNodes nodes)
  | [] => fun _ depth => by
    rw [writtenNodes, bareNodes]
    exact .nil
  | node :: nodes => fun h depth => by
    rw [AreReadable] at h
    have hnode : IsReadAs false (lineBreak depth ++ written depth node) [node.bare] :=
      (Node.IsReadable.isReadAs h.1 depth).spaces (by simp [lineBreak])
        (fun c hc => isSpace_of_mem_lineBreak hc) (written_head h.1 depth)
    rw [writtenNodes, bareNodes, ← append_assoc]
    exact hnode.append (AreReadable.isReadAs h.2 depth)

end

theorem IsReadAs.parseNodes_group {spaces : List Char} {nodes : List Node}
    (h : IsReadAs true w nodes) (hne : spaces ≠ []) (hspaces : ∀ c ∈ spaces, isSpace c = true) :
    parseNodes true .nowhere .nothing (Component.group .nowhere (Lexeme.cut (w ++ spaces)))
      = .ok nodes := by
  obtain ⟨cs, hcut, hfits, hparse⟩ := h spaces
  have hspace : Lexeme.cut (spaces ++ []) = _ := Lexeme.cut_spaces hne hspaces nofun
  rw [append_nil, Lexeme.cut_nil] at hspace
  have hall : Lexeme.cut (w ++ spaces) = flatOf (cs ++ [spaceLeaf spaces]) := by
    rw [hcut, hspace, flatOf_append]
    rfl
  rw [hall, group_flatOf _ (allFit_append.2 ⟨hfits,
    allFit_singleton.2 (fits_spaceLeaf ..)⟩), hparse, parseNodes_spaceLeaf, parseNodes]
  exact congrArg Except.ok (append_nil nodes)

theorem Stylesheet.parse_render_of_isReadable {sheet : Stylesheet}
    (h : ∀ node ∈ sheet.nodes, node.IsReadable true) (filename : Option String) :
    ∃ again, Stylesheet.parse filename sheet.render = .ok again ∧
      bareNodes again.nodes = bareNodes sheet.nodes := by
  have hnodes : parseNodes true .nowhere .nothing (group .nowhere (Lexeme.cut sheet.render.toList))
        = .ok (bareNodes sheet.nodes) := by
    cases hsheet : sheet.nodes with
    | nil =>
      rw [Stylesheet.render, hsheet, map_nil, String.intercalate_nil, String.toList_empty,
        Lexeme.cut_nil]
      rfl
    | cons node nodes =>
      rw [Stylesheet.toList_render hsheet]
      rw [hsheet] at h
      have hrest : ∀ nodes : List Node, (∀ node ∈ nodes, node.IsReadable true) →
          IsReadAs true (nodes.flatMap fun node => '\n' :: '\n' :: written 0 node)
            (bareNodes nodes) := by
        intro nodes
        induction nodes with
        | nil => exact fun _ => .nil
        | cons node nodes ih =>
          intro h
          have hnode := h node (by simp)
          have hspaced : IsReadAs true (['\n', '\n'] ++ written 0 node) [node.bare] :=
            (hnode.isReadAs 0).spaces (by simp) (by simp [isSpace, isNewline])
              (written_head hnode 0)
          rw [flatMap_cons, bareNodes]
          exact hspaced.append (ih fun node hmem => h node (by simp [hmem]))
      have hread := ((h node (by simp)).isReadAs 0).append
        (hrest nodes fun node hmem => h node (by simp [hmem]))
      exact hread.parseNodes_group (by simp) (by simp [isSpace, isNewline])
  have hbare := Stylesheet.parse_bare filename sheet.render
  rw [hnodes] at hbare
  cases hparse : Stylesheet.parse filename sheet.render with
  | error e =>
    rw [hparse] at hbare
    cases hbare
  | ok again =>
    rw [hparse] at hbare
    exact ⟨again, rfl, Option.some.inj hbare⟩

end StyleBlocks
