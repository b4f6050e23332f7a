import StyleBlocks.Proofs.Selector.Printed

/-!
# Selectors that are read back

The text of selectors is read condition by condition.  The first argument that is not closed is read
as something else, and then the selectors that are read are others.

Main result: `Selector.parseList_render_iff`.
-/

namespace StyleBlocks

open List Selector Component Simple

variable {a : Char} {l : Lexeme} {location : Location} {name : String}
  {parts : List (List Component × Location)} {spaces : List Char} {ss : List Selector}
  {s : Selector} {context : List (Compound × Combinator)} {x : Simple} {r : List Char}

/-! ## Reading on -/

/-- From the given components on, where `context` and `current` are read, the selector becomes `s`
and the ones behind it are `ss`. -/
def ReadsOn (context : List (Compound × Combinator)) (current : Compound) (spaced : Bool)
    (cs : List Component) (s : Selector) (ss : List Selector) : Prop :=
  ∃ part stop parts, splitCommas .nowhere cs = (part, stop) :: parts ∧
    readSelector stop context current spaced part = .ok s ∧ parts.mapM readListItem = .ok ss

section

variable {context context' : List (Compound × Combinator)} {current current' : Compound}
  {spaced spaced' : Bool} {c : Component} {cs part : List Component} {stop : Location}

theorem splitCommas_append (part : List Component) {part' : List Component}
    (hpart : ∀ c ∈ part, c.token ≠ .comma) (h : splitCommas stop cs = (part', location) :: parts) :
    splitCommas stop (part ++ cs) = (part ++ part', location) :: parts := by
  induction part with
  | nil => exact h
  | cons c part ih =>
    rw [cons_append, splitCommas, if_neg (hpart c mem_cons_self),
      ih fun d hd => hpart d (mem_cons_of_mem c hd)]
    rfl

theorem readsOn_iff (h : splitCommas .nowhere cs = (part, location) :: parts) :
    ReadsOn context current spaced cs s ss ↔
      readSelector location context current spaced part = .ok s ∧ parts.mapM readListItem = .ok ss := by
  unfold ReadsOn
  rw [h]
  constructor
  · rintro ⟨_, _, _, heq, hread⟩
    cases heq
    exact hread
  · intro hread
    exact ⟨_, _, _, rfl, hread⟩

theorem readsOn_append (part : List Component) (hpart : ∀ c ∈ part, c.token ≠ .comma)
    (hread : ∀ stop rest, readSelector stop context current spaced (part ++ rest)
      = readSelector stop context' current' spaced' rest) :
    ReadsOn context current spaced (part ++ cs) s ss ↔ ReadsOn context' current' spaced' cs s ss := by
  obtain ⟨part', location, parts, hsplit⟩ := exists_splitCommas .nowhere cs
  rw [readsOn_iff (splitCommas_append part hpart hsplit), readsOn_iff hsplit, hread]

theorem readsOn_isWritten (h : Simple.IsWritten part x) (hgrouped : ∀ c ∈ part, c.IsGrouped)
    (hcurrent : current.any isPseudoElement = true → x.isPseudoElement = true) :
    ReadsOn context current false (part ++ cs) s ss
      ↔ ReadsOn context (current ++ [x]) false cs s ss := by
  refine readsOn_append part (fun c hc => ((h.isPlain hgrouped).1 c hc).2) fun _ =>
    h.readSelector_append hgrouped ?_
  simpa [Bool.and_eq_false_imp] using hcurrent

theorem readsOn_space :
    ReadsOn context current spaced (spaceLeaf spaces :: cs) s ss
      ↔ ReadsOn context current (!current.isEmpty) cs s ss :=
  readsOn_append [spaceLeaf spaces] (by simp [spaceLeaf, token, lexeme])
    fun _ _ => readSelector_space rfl rfl

theorem readsOn_combinator {k : Combinator} (hcurrent : current ≠ [])
    (hk : combinator? c.token = some k) : ReadsOn context current spaced (c :: cs) s ss
      ↔ ReadsOn (context ++ [(current, k)]) [] false cs s ss := by
  have hne : ∀ t, c.token = t → combinator? t = some k := fun t ht => ht ▸ hk
  have hcomment : c.isComment = false := by
    cases h : c.isComment with
    | false => rfl
    | true =>
      obtain ⟨text, htext⟩ := isComment_iff.1 h
      cases hne _ htext
  refine readsOn_append [c] ?_ fun stop rest => ?_
  · intro d hd hcomma
    rw [mem_singleton.1 hd] at hcomma
    cases hne _ hcomma
  · rw [singleton_append, readSelector_combinator (dropWhile_isComment_cons hcomment rest) hk,
      if_neg (by simpa using hcurrent)]

theorem exists_splitCommas_cons (hcomma : c.token ≠ .comma) (cs : List Component) :
    ∃ part location parts, splitCommas .nowhere (c :: cs) = (c :: part, location) :: parts := by
  obtain ⟨part, location, parts, hsplit⟩ := exists_splitCommas .nowhere cs
  exact ⟨part, location, parts, splitCommas_append [c] (by simpa using hcomma) hsplit⟩

theorem readsOn_descendant (hfiller : c.isFiller = false) (hcombinator : combinator? c.token = none)
    (hcomma : c.token ≠ .comma) : ReadsOn context current true (c :: cs) s ss
      ↔ ReadsOn (context ++ [(current, .descendant)]) [] false (c :: cs) s ss := by
  obtain ⟨part, location, parts, hsplit⟩ := exists_splitCommas_cons hcomma cs
  have hdrop := dropWhile_isComment_cons (isComment_of_isFiller hfiller) part
  rw [readsOn_iff hsplit, readsOn_iff hsplit,
    readSelector_condition hdrop (ne_space_of_isFiller hfiller) hcombinator,
    readSelector_condition hdrop (ne_space_of_isFiller hfiller) hcombinator]
  cases readSimple location (headLocation location (c :: part)) c part with
  | error e | ok r => exact Iff.rfl

theorem readSelector_end (hcurrent : current ≠ []) (stop : Location) :
    readSelector stop context current spaced [] = .ok ⟨context, current⟩ := by
  rw [readSelector_nil rfl, if_neg (by simpa using hcurrent)]

theorem readsOn_nil (hcurrent : current ≠ []) :
    ReadsOn context current spaced [] s ss ↔ s = ⟨context, current⟩ ∧ ss = [] := by
  rw [readsOn_iff rfl, readSelector_end hcurrent, Except.ok.injEq, eq_comm]
  exact and_congr_right fun _ => ⟨fun h => (Except.ok.inj h).symm, fun h => h ▸ rfl⟩

theorem readsOn_comma (hcurrent : current ≠ []) (hc : c.token = .comma) :
    ReadsOn context current spaced (c :: cs) s ss
      ↔ s = ⟨context, current⟩ ∧ readItems cs = .ok ss := by
  have hsplit : splitCommas .nowhere (c :: cs) = ([], c.location) :: splitCommas .nowhere cs := by
    rw [splitCommas, if_pos hc]
  rw [readsOn_iff hsplit, readSelector_end hcurrent, Except.ok.injEq, eq_comm, readItems]

theorem readItems_eq_ok_iff (hfiller : c.isFiller = false) (hcomma : c.token ≠ .comma) :
    readItems (c :: cs) = .ok (s :: ss) ↔ ReadsOn [] [] false (c :: cs) s ss := by
  obtain ⟨part, location, parts, hsplit⟩ := exists_splitCommas_cons hcomma cs
  rw [readsOn_iff hsplit, readItems, hsplit, mapM_cons, readListItem,
    dropWhile_cons_of_neg (by simp [hfiller])]
  constructor
  · intro h
    obtain ⟨s', hs, h⟩ := except_bind_ok h
    obtain ⟨ss', hss, h⟩ := except_bind_ok h
    cases h
    exact ⟨hs, hss⟩
  · rintro ⟨hs, hss⟩
    rw [hs, hss]
    rfl

theorem readItems_space : readItems (spaceLeaf spaces :: cs) = readItems cs := by
  obtain ⟨part, location, parts, hsplit⟩ := exists_splitCommas .nowhere cs
  have hcons := splitCommas_append [spaceLeaf spaces] (by simp [spaceLeaf, token, lexeme]) hsplit
  rw [singleton_append] at hcons
  rw [readItems, readItems, hcons, hsplit, mapM_cons, mapM_cons]
  rfl

theorem prefix_of_readSelector (h : readSelector stop context current spaced cs = .ok s) :
    context.flatMap Prod.fst ++ current <+: s.compounds.flatten := by
  fun_induction readSelector stop context current spaced cs with
  | case1 | case4 | case6 | case8 => cases h
  | case2 context current =>
    cases h
    simp [compounds, flatMap_def]
  | case3 context current spaced cs c rest hd _ _ _ ih => exact ih h
  | case5 context current spaced cs c rest hd _ k _ _ _ ih =>
    simpa using ih h
  | case7 context current cs c rest hd _ simple rest' hs _ _ ih =>
    refine IsPrefix.trans ?_ (ih h)
    simp
  | case9 context current spaced cs c rest hd _ simple rest' hs _ _ _ _ ih =>
    refine IsPrefix.trans ?_ (ih h)
    simp

theorem eq_of_isPrefix_append {α : Type} {u l : List α} {a b : α} (ha : u ++ [a] <+: l)
    (hb : u ++ [b] <+: l) : a = b := by
  have hlength : (u ++ [a]).length = (u ++ [b]).length := by simp
  have heq := (prefix_of_prefix_length_le ha hb (by omega)).eq_of_length hlength
  simpa using heq

theorem isWritten_of_readsOn (before : List Component) (hfiller : c.isFiller = false)
    (hcombinator : combinator? c.token = none) (hbefore : ∀ d ∈ c :: before, d.token ≠ .comma)
    (hs : context.flatMap Prod.fst ++ (current ++ [x]) <+: s.compounds.flatten)
    (h : ReadsOn context current false (c :: (before ++ cs)) s ss) :
    ∃ q part more, Simple.IsWritten (c :: q) x ∧ uncommented (before ++ part) = q ++ more := by
  obtain ⟨part, location, parts, hsplit⟩ := exists_splitCommas .nowhere cs
  rw [← cons_append, readsOn_iff (splitCommas_append (c :: before) hbefore hsplit), cons_append,
    readSelector_condition (dropWhile_isComment_cons (isComment_of_isFiller hfiller) _)
      (ne_space_of_isFiller hfiller) hcombinator] at h
  obtain ⟨hread, -⟩ := h
  split at hread
  · cases hread
  rename_i y rest hy
  rw [if_neg (by simp)] at hread
  split at hread
  · cases hread
  obtain ⟨q, hwritten, hrest⟩ := isWritten_of_readSimple hy
  have hprefix := prefix_of_readSelector hread
  rw [← append_assoc] at hprefix hs
  rw [eq_of_isPrefix_append hprefix hs] at hwritten
  exact ⟨q, part, _, hwritten, hrest⟩

end

/-! ## Components of texts -/

theorem Component.group_cons (h : l.token.IsPlain) (ls : List Lexeme) :
    group .nowhere (l :: ls) = .leaf l :: group .nowhere ls := by
  obtain ⟨hfit, hflat⟩ := allFit_leaves (forall_mem_singleton.2 h) none
  have hgroup := Component.group_append .nowhere hfit ls
  exact hgroup

theorem componentsOf_colon (w : List Char) :
    componentsOf (':' :: w) = .leaf ⟨.colon, [':'], .nowhere⟩ :: componentsOf w := by
  rw [componentsOf, Lexeme.cut_colon, group_cons ⟨rfl, rfl⟩, componentsOf]

theorem componentsOf_comma (w : List Char) :
    componentsOf (',' :: w) = .leaf ⟨.comma, [','], .nowhere⟩ :: componentsOf w := by
  rw [componentsOf, Lexeme.cut_mark (fun _ => rfl), group_cons ⟨rfl, rfl⟩, componentsOf]

theorem componentsOf_space (ha : isSpace a = true) {w : List Char}
    (hw : ∀ c, w.head? = some c → isSpace c = false) :
    componentsOf (a :: w) = spaceLeaf [a] :: componentsOf w := by
  have hcut := Lexeme.cut_spaces (cons_ne_nil a []) (by simpa using ha) hw
  rw [singleton_append] at hcut
  rw [componentsOf, hcut, group_cons ⟨rfl, rfl⟩, componentsOf, spaceLeaf]

theorem exists_componentsOf_cons (a : Char) (w : List Char) :
    ∃ c cs, componentsOf (a :: w) = c :: cs ∧ c.token = (Token.read a w).1 := by
  obtain ⟨text, htext⟩ := (Token.read_suffix a w).trans (suffix_cons a w)
  generalize hread : Token.read a w = token at htext
  obtain ⟨t, rest⟩ := token
  rw [componentsOf, Lexeme.cut_cons hread htext]
  have hhead := head?_group .nowhere ⟨t, text, .nowhere⟩ (Lexeme.cut rest)
  cases hcs : group .nowhere (⟨t, text, .nowhere⟩ :: Lexeme.cut rest) with
  | nil =>
    rw [hcs] at hhead
    cases hhead
  | cons c cs =>
    rw [hcs] at hhead
    exact ⟨c, cs, rfl, congrArg Lexeme.token (Option.some.inj hhead)⟩

theorem exists_componentsOf_paren (h : isIdentifier name = true) (w : List Char) :
    ∃ c cs, componentsOf (name.toList ++ '(' :: w) = c :: cs ∧ c.token.IsWord := by
  obtain ⟨hstart, hall⟩ := isIdentifier_iff.1 h
  obtain ⟨a, s, has⟩ := exists_cons_of_ne_nil (toList_ne_nil_of_isIdentifier h)
  rw [has] at hstart hall ⊢
  have hword := isWord_readIdentLike (a :: s ++ '(' :: w)
  rw [← read_append_of_startsIdent hstart hall (by simp)] at hword
  obtain ⟨c, cs, hcs, hc⟩ := exists_componentsOf_cons a (s ++ '(' :: w)
  exact ⟨c, cs, hcs, hc ▸ hword⟩

/-! ## Conditions -/

section

variable {current : Compound}

theorem argumentOf_of_names {c : Component} {text : String} (h : c.Names name (some text)) :
    c.token = .function name ∧ argumentOf c = text := by
  cases h with
  | function h => exact ⟨h, rfl⟩

theorem isClosed_of_readsOn (h : x.IsWellNamed)
    (hs : context.flatMap Prod.fst ++ (current ++ [x]) <+: s.compounds.flatten)
    (hread : ReadsOn context current false (componentsOf (x.render.toList ++ r)) s ss) :
    x.isClosed = true := by
  have hcolon : (leaf ⟨.colon, [':'], .nowhere⟩).token = .colon := rfl
  have hcons {c : Component} (hc : c.token.IsWord) (part : List Component) :
      uncommented (c :: part) = c :: uncommented part :=
    uncommented_eq_cons (dropWhile_isComment_cons (Token.isComment_of_isFiller hc.isFiller) part)
  cases x with
  | tag | universal | className | id | hasAttribute => rfl
  | pseudoClass name argument =>
    cases argument with
    | none => rfl
    | some argument =>
      have htext : (Simple.pseudoClass name (some argument)).render.toList ++ r
          = ':' :: (name.toList ++ '(' :: (argument.toList ++ ')' :: r)) := by
        simp [Simple.render, renderArgument]
      obtain ⟨c, cs, hcs, hc⟩ := exists_componentsOf_paren h.1 (argument.toList ++ ')' :: r)
      rw [htext, componentsOf_colon, hcs] at hread
      obtain ⟨q, part, more, hwritten, hq⟩ := isWritten_of_readsOn [c] rfl rfl
        (by simpa [hcolon] using hc.ne_comma) hs hread
      rw [singleton_append, hcons hc] at hq
      cases hwritten with
      | pseudoClass _ hd =>
        cases hq
        obtain ⟨htoken, hargument⟩ := argumentOf_of_names hd
        exact isClosedArgument_of_argumentOf h.1 hcs htoken hargument
  | pseudoElement name argument =>
    cases argument with
    | none => rfl
    | some argument =>
      have htext : (Simple.pseudoElement name (some argument)).render.toList ++ r
          = ':' :: ':' :: (name.toList ++ '(' :: (argument.toList ++ ')' :: r)) := by
        simp [Simple.render, renderArgument]
      obtain ⟨c, cs, hcs, hc⟩ := exists_componentsOf_paren h.1 (argument.toList ++ ')' :: r)
      rw [htext, componentsOf_colon, componentsOf_colon, hcs] at hread
      obtain ⟨q, part, more, hwritten, hq⟩ := isWritten_of_readsOn
        [.leaf ⟨.colon, [':'], .nowhere⟩, c] rfl rfl (by simpa [hcolon] using hc.ne_comma) hs hread
      rw [cons_append, singleton_append, uncommented_eq_cons
        (dropWhile_isComment_cons rfl (c :: part)), hcons hc] at hq
      cases hwritten with
      | pseudoElement _ _ he =>
        cases hq
        obtain ⟨htoken, hargument⟩ := argumentOf_of_names he
        exact isClosedArgument_of_argumentOf h.1 hcs htoken hargument

theorem readsOn_simple (h : x.IsWellNamed) (hr : x.endsInName = true → Follows r)
    (heq : r.head? ≠ some '=')
    (horder : current.any isPseudoElement = true → x.isPseudoElement = true)
    (hs : context.flatMap Prod.fst ++ (current ++ [x]) <+: s.compounds.flatten) :
    ReadsOn context current false (componentsOf (x.render.toList ++ r)) s ss
      ↔ x.isClosed = true ∧ ReadsOn context (current ++ [x]) false (componentsOf r) s ss := by
  have hclosed (hx : x.isClosed = true) :
      ReadsOn context current false (componentsOf (x.render.toList ++ r)) s ss
        ↔ ReadsOn context (current ++ [x]) false (componentsOf r) s ss := by
    obtain ⟨part, hpart, hgrouped, hgroup⟩ := (spells h hx hr heq).group
    rw [hgroup, readsOn_isWritten hpart hgrouped horder]
  constructor
  · intro hread
    have hx := isClosed_of_readsOn h hs hread
    exact ⟨hx, (hclosed hx).1 hread⟩
  · rintro ⟨hx, hread⟩
    exact (hclosed hx).2 hread

end

/-! ## Compounds -/

/-- A compound whose text keeps its conditions apart: a tag does not stand behind a name, and
pseudo-elements stand last. -/
structure Compound.IsPrintable (c : Compound) : Prop where
  ne_nil : c ≠ []
  wellNamed : ∀ x ∈ c, x.IsWellNamed
  elements : c.Pairwise fun x y => x.isPseudoElement = true → y.isPseudoElement = true
  apart : c.IsChain fun x y => x.endsInName = true → ∀ name, y ≠ .tag name

namespace Simple

theorem exists_render (h : ∀ name, x ≠ .tag name) :
    ∃ c w, x.render.toList = c :: w ∧ c ∈ ['*', '.', '#', '[', ':'] := by
  cases x with
  | tag name => exact absurd rfl (h name)
  | universal => exact ⟨'*', [], rfl, by simp⟩
  | className name =>
    exact ⟨'.', writeIdentifier name.toList, by simp [Simple.render], by simp⟩
  | id name => exact ⟨'#', writeIdentifier name.toList, by simp [Simple.render], by simp⟩
  | hasAttribute a => exact ⟨'[', _, a.toList_render, by simp⟩
  | pseudoClass name argument =>
    exact ⟨':', name.toList ++ (renderArgument argument).toList, by simp [Simple.render], by simp⟩
  | pseudoElement name argument =>
    exact ⟨':', ':' :: (name.toList ++ (renderArgument argument).toList), by simp [Simple.render],
      by simp⟩

theorem follows_render (h : ∀ name, x ≠ .tag name) (r : List Char) :
    Follows (x.render.toList ++ r) := by
  obtain ⟨c, w, hw, hc⟩ := exists_render h
  rw [hw, cons_append]
  simp only [mem_cons, not_mem_nil, or_false] at hc
  rcases hc with rfl | rfl | rfl | rfl | rfl <;>
    exact follows_of_head (by decide) (by decide) (by decide) (by decide) (by decide) _

theorem exists_head_render (h : x.IsWellNamed) :
    ∃ c w, x.render.toList = c :: w ∧ isSpace c = false ∧ c ≠ '=' := by
  by_cases htag : ∃ name, x = .tag name
  · obtain ⟨name, rfl⟩ := htag
    have hname : isIdentifier name = true := h
    obtain ⟨c, w, hw⟩ := exists_cons_of_ne_nil (toList_ne_nil_of_isIdentifier hname)
    refine ⟨c, w, hw, ?_, ((writes_identifier hname).head c (by rw [hw]; rfl)).2⟩
    have hchar := (isIdentifier_iff.1 hname).2 c (hw ▸ mem_cons_self)
    cases hspace : isSpace c with
    | false => rfl
    | true => exact absurd hchar (by simp [(stop_of_isSpace hspace).name])
  · obtain ⟨c, w, hw, hc⟩ := exists_render fun name heq => htag ⟨name, heq⟩
    refine ⟨c, w, hw, ?_⟩
    simp only [mem_cons, not_mem_nil, or_false] at hc
    rcases hc with rfl | rfl | rfl | rfl | rfl <;> decide

end Simple

/-- A text with which no compound goes on. -/
structure EndsCompound (r : List Char) : Prop where
  follows : Follows r
  equals : r.head? ≠ some '='

theorem endsCompound_nil : EndsCompound [] :=
  ⟨follows_nil, by simp⟩

theorem endsCompound_cons (ha : a = ' ' ∨ a = ',') (r : List Char) : EndsCompound (a :: r) := by
  rcases ha with rfl | rfl <;>
    exact ⟨follows_of_head (by decide) (by decide) (by decide) (by decide) (by decide) _, by simp⟩

/-- A text that begins with a condition. -/
structure StartsCondition (w : List Char) : Prop where
  component : ∃ c cs, componentsOf w = c :: cs ∧ c.isFiller = false ∧
    combinator? c.token = none ∧ c.token ≠ .comma
  space : ∀ a, w.head? = some a → isSpace a = false

section

variable {current c : Compound}

theorem Simple.startsCondition (h : x.IsWellNamed) (hr : x.endsInName = true → Follows r)
    (heq : r.head? ≠ some '=') : StartsCondition (x.render.toList ++ r) := by
  refine ⟨?_, ?_⟩
  · cases hclosed : x.isClosed with
    | true =>
      obtain ⟨part, hpart, hgrouped, hgroup⟩ := (Simple.spells h hclosed hr heq).group
      obtain ⟨hplain, c, cs, rfl, hfiller, hcombinator⟩ := hpart.isPlain hgrouped
      exact ⟨c, _, hgroup, hfiller, hcombinator, (hplain c mem_cons_self).2⟩
    | false =>
      -- only a condition with a colon has an argument
      obtain ⟨w, hw⟩ : ∃ w, x.render.toList = ':' :: w := by
        cases x with
        | tag | universal | className | id | hasAttribute => cases hclosed
        | pseudoClass name argument =>
          exact ⟨name.toList ++ (renderArgument argument).toList, by simp [Simple.render]⟩
        | pseudoElement name argument =>
          exact ⟨':' :: (name.toList ++ (renderArgument argument).toList), by simp [Simple.render]⟩
      rw [hw, cons_append, componentsOf_colon]
      exact ⟨_, _, rfl, rfl, rfl, fun hcomma => by cases hcomma⟩
  · obtain ⟨a, w, hw, hspace, -⟩ := Simple.exists_head_render h
    rw [hw]
    intro b hb
    cases hb
    exact hspace

theorem Compound.toList_render_cons (x : Simple) (c : Compound) :
    (Compound.render (x :: c)).toList = x.render.toList ++ (Compound.render c).toList := by
  simp [Compound.render]

theorem Compound.follows_tail (hwell : ∀ y ∈ c, y.IsWellNamed)
    (hapart : (x :: c).IsChain fun x y => x.endsInName = true → ∀ name, y ≠ .tag name)
    (hr : EndsCompound r) : (x.endsInName = true → Follows ((Compound.render c).toList ++ r)) ∧
      ((Compound.render c).toList ++ r).head? ≠ some '=' := by
  cases c with
  | nil => exact ⟨fun _ => hr.follows, hr.equals⟩
  | cons y c =>
    rw [Compound.toList_render_cons, append_assoc]
    refine ⟨fun hname => follows_render ((isChain_cons_cons.1 hapart).1 hname) _, ?_⟩
    obtain ⟨a, w, hw, -, ha⟩ := exists_head_render (hwell y mem_cons_self)
    rw [hw]
    simpa using ha

theorem Compound.IsPrintable.startsCondition (h : c.IsPrintable) (hr : EndsCompound r) :
    StartsCondition (c.render.toList ++ r) := by
  obtain ⟨x, c, rfl⟩ := exists_cons_of_ne_nil h.ne_nil
  obtain ⟨hfollows, hequals⟩ := Compound.follows_tail
    (fun y hy => h.wellNamed y (mem_cons_of_mem x hy)) h.apart hr
  rw [Compound.toList_render_cons, append_assoc]
  exact Simple.startsCondition (h.wellNamed x mem_cons_self) hfollows hequals

theorem readsOn_compound (hwell : ∀ x ∈ c, x.IsWellNamed)
    (hapart : c.IsChain fun x y => x.endsInName = true → ∀ name, y ≠ .tag name)
    (horder : (current ++ c).Pairwise fun x y => x.isPseudoElement = true → y.isPseudoElement = true)
    (hr : EndsCompound r)
    (hs : context.flatMap Prod.fst ++ (current ++ c) <+: s.compounds.flatten) :
    ReadsOn context current false (componentsOf (c.render.toList ++ r)) s ss
      ↔ c.all Simple.isClosed = true ∧ ReadsOn context (current ++ c) false (componentsOf r) s ss := by
  induction c generalizing current with
  | nil => simp [Compound.render]
  | cons x c ih =>
    have hbehind := Compound.follows_tail (fun y hy => hwell y (mem_cons_of_mem x hy)) hapart hr
    have hbefore : current.any isPseudoElement = true → x.isPseudoElement = true := by
      intro hany
      obtain ⟨y, hy, helement⟩ := any_eq_true.1 hany
      exact (pairwise_append.1 horder).2.2 y hy x mem_cons_self helement
    have happend : current ++ x :: c = current ++ [x] ++ c := by simp
    rw [happend] at horder hs ⊢
    have hfirst : context.flatMap Prod.fst ++ (current ++ [x]) <+: s.compounds.flatten :=
      ((prefix_append_right_inj _).2 (prefix_append _ _)).trans hs
    rw [Compound.toList_render_cons, append_assoc,
      readsOn_simple (hwell x mem_cons_self) hbehind.1 hbehind.2 hbefore hfirst,
      ih (fun y hy => hwell y (mem_cons_of_mem x hy)) hapart.of_cons horder hs, all_cons,
      Bool.and_eq_true, and_assoc]

end

/-! ## Selectors -/

def Selector.IsPrintable (s : Selector) : Prop :=
  ∀ c ∈ s.compounds, c.IsPrintable

def Selector.isClosed (s : Selector) : Bool :=
  s.compounds.all fun c => c.all Simple.isClosed

section

variable {current : Compound} {t : Selector} {r w : List Char}

theorem endsCompound_combinator (k : Combinator) (w : List Char) :
    EndsCompound (k.render.toList ++ w) := by
  cases k <;> exact endsCompound_cons (.inl rfl) _

theorem readsOn_render_combinator (k : Combinator) (hcurrent : current ≠ [])
    (hw : StartsCondition w) :
    ReadsOn context current false (componentsOf (k.render.toList ++ w)) s ss
      ↔ ReadsOn (context ++ [(current, k)]) [] false (componentsOf w) s ss := by
  have hspaces : componentsOf (' ' :: w) = spaceLeaf [' '] :: componentsOf w :=
    componentsOf_space (by decide) hw.space
  -- all but the space are marks between spaces
  have hmark (m : Char) (hm : combinator? (.delim m) = some k) (hspace : isSpace m = false)
      (hread : Token.read m (' ' :: w) = (.delim m, ' ' :: w)) :
      ReadsOn context current false (componentsOf (' ' :: m :: ' ' :: w)) s ss
        ↔ ReadsOn (context ++ [(current, k)]) [] false (componentsOf w) s ss := by
    have hcut : componentsOf (m :: ' ' :: w)
        = .leaf ⟨.delim m, [m], .nowhere⟩ :: componentsOf (' ' :: w) := by
      rw [componentsOf, Lexeme.cut_cons hread (w := [m]) rfl, group_cons ⟨rfl, rfl⟩, componentsOf]
    rw [componentsOf_space (by decide) (by simpa using hspace), readsOn_space, hcut,
      readsOn_combinator (c := .leaf ⟨.delim m, [m], .nowhere⟩) hcurrent hm, hspaces, readsOn_space]
    rfl
  cases k with
  | descendant =>
    obtain ⟨c, cs, hcs, hfiller, hcombinator, hcomma⟩ := hw.component
    have hempty : current.isEmpty = false := by simpa using hcurrent
    show ReadsOn context current false (componentsOf (' ' :: w)) s ss ↔ _
    rw [hspaces, readsOn_space, hempty, hcs]
    exact readsOn_descendant hfiller hcombinator hcomma
  | child => exact hmark '>' rfl (by decide) rfl
  | adjacent => exact hmark '+' rfl (by decide) rfl
  | sibling => exact hmark '~' rfl (by decide) rfl

theorem Selector.toList_render_cons (c : Compound) (k : Combinator)
    (context : List (Compound × Combinator)) (key : Compound) :
    (Selector.mk ((c, k) :: context) key).render.toList
      = c.render.toList ++ (k.render.toList ++ (Selector.mk context key).render.toList) := by
  simp [Selector.render]

theorem Selector.IsPrintable.startsCondition (h : t.IsPrintable) (hr : EndsCompound r) :
    StartsCondition (t.render.toList ++ r) := by
  obtain ⟨context, key⟩ := t
  cases context with
  | nil =>
    have htext : (Selector.mk [] key).render = key.render := by simp [Selector.render]
    exact (h key (by simp [Selector.compounds])).startsCondition hr
  | cons first context =>
    obtain ⟨c, k⟩ := first
    rw [Selector.toList_render_cons, append_assoc, append_assoc]
    exact (h c (by simp [Selector.compounds])).startsCondition (endsCompound_combinator k _)

/-- **A selector is read where it is printed, if and only if its arguments are closed.** -/
theorem readsOn_selector (h : t.IsPrintable) (hr : EndsCompound r)
    (hs : (context ++ t.context).flatMap Prod.fst ++ t.key <+: s.compounds.flatten) :
    ReadsOn context [] false (componentsOf (t.render.toList ++ r)) s ss
      ↔ t.isClosed = true ∧ ReadsOn (context ++ t.context) t.key false (componentsOf r) s ss := by
  obtain ⟨rest, key⟩ := t
  induction rest generalizing context with
  | nil =>
    have hkey := h key (by simp [compounds])
    have htext : (mk [] key).render = key.render := by simp [Selector.render]
    rw [append_nil] at hs ⊢
    rw [htext, readsOn_compound hkey.wellNamed hkey.apart (by simpa using hkey.elements) hr hs]
    simp [Selector.isClosed, compounds]
  | cons first rest ih =>
    obtain ⟨c, k⟩ := first
    have hc := h c (by simp [compounds])
    have htail : (mk rest key).IsPrintable :=
      fun d hd => h d (mem_cons_of_mem c hd)
    have happend : context ++ (c, k) :: rest = context ++ [(c, k)] ++ rest := by simp
    rw [happend] at hs ⊢
    have hfirst : context.flatMap Prod.fst ++ ([] ++ c) <+: s.compounds.flatten := by
      refine IsPrefix.trans ?_ hs
      simp [flatMap_append]
    rw [toList_render_cons, append_assoc, append_assoc,
      readsOn_compound hc.wellNamed hc.apart (by simpa using hc.elements)
        (endsCompound_combinator k _) hfirst, nil_append,
      readsOn_render_combinator k hc.ne_nil (htail.startsCondition hr), ih htail hs]
    simp [Selector.isClosed, compounds, and_assoc]

end

/-! ## Lists of selectors -/

theorem toList_renderSelectors_cons (s t : Selector) (ss : List Selector) :
    (renderSelectors (s :: t :: ss)).toList
      = s.render.toList ++ ',' :: '\n' :: (renderSelectors (t :: ss)).toList := by
  simp [renderSelectors]

theorem startsCondition_renderSelectors (h : s.IsPrintable) (ss : List Selector) :
    StartsCondition (renderSelectors (s :: ss)).toList := by
  cases ss with
  | nil =>
    have hstart := h.startsCondition endsCompound_nil
    simpa [renderSelectors] using hstart
  | cons t ss =>
    rw [toList_renderSelectors_cons]
    exact h.startsCondition (endsCompound_cons (.inr rfl) _)

theorem readItems_render_append (h : s.IsPrintable) (hr : EndsCompound r) :
    readItems (componentsOf (s.render.toList ++ r)) = .ok (s :: ss)
      ↔ s.isClosed = true ∧ ReadsOn s.context s.key false (componentsOf r) s ss := by
  obtain ⟨c, cs, hcs, hfiller, -, hcomma⟩ := (h.startsCondition hr).component
  have hself : ([] ++ s.context).flatMap Prod.fst ++ s.key <+: s.compounds.flatten := by
    simp [compounds, flatMap_def]
  rw [hcs, readItems_eq_ok_iff hfiller hcomma, ← hcs, readsOn_selector h hr hself, nil_append]

theorem readItems_render_iff (h : ∀ t ∈ s :: ss, t.IsPrintable) :
    readItems (componentsOf (renderSelectors (s :: ss)).toList) = .ok (s :: ss)
      ↔ ∀ t ∈ s :: ss, t.isClosed = true := by
  induction ss generalizing s with
  | nil =>
    have hs := h s mem_cons_self
    have hkey : s.key ≠ [] := (hs s.key (by simp [compounds])).ne_nil
    have htext : (renderSelectors [s]).toList = s.render.toList ++ [] := by simp [renderSelectors]
    have hnil : componentsOf [] = [] := by
      rw [componentsOf, Lexeme.cut_nil]
      rfl
    rw [htext, readItems_render_append hs endsCompound_nil, hnil, readsOn_nil hkey]
    simp
  | cons t ss ih =>
    have hs := h s mem_cons_self
    have hkey : s.key ≠ [] := (hs s.key (by simp [compounds])).ne_nil
    have hrest : ∀ u ∈ t :: ss, u.IsPrintable := fun u hu => h u (mem_cons_of_mem s hu)
    have hstart := startsCondition_renderSelectors (hrest t mem_cons_self) ss
    rw [toList_renderSelectors_cons, readItems_render_append hs (endsCompound_cons (.inr rfl) _),
      componentsOf_comma, readsOn_comma hkey rfl, componentsOf_space (by decide) hstart.space,
      readItems_space, ih hrest, forall_mem_cons]
    simp

/-- **Printed selectors are read back if and only if all arguments are closed.** -/
theorem Selector.parseList_render_iff (hne : ss ≠ []) (h : ∀ s ∈ ss, s.IsPrintable) :
    Selector.parseList (renderSelectors ss) = .ok ss ↔ ∀ s ∈ ss, s.isClosed = true := by
  obtain ⟨s, ss, rfl⟩ := exists_cons_of_ne_nil hne
  rw [Selector.parseList_eq_ok_iff]
  exact readItems_render_iff h

theorem Selector.parseList_render_compound {c : Compound} (hne : c ≠ [])
    (hwell : ∀ x ∈ c, x.IsWellNamed) (hclosed : c.all Simple.isClosed = true)
    (helements : ∀ x ∈ c, x.isPseudoElement = false) (htail : ∀ x ∈ c.tail, ∀ name, x ≠ .tag name) :
    Selector.parseList c.render = .ok [⟨[], c⟩] := by
  have htext : renderSelectors [⟨[], c⟩] = c.render := by simp [renderSelectors, Selector.render]
  have hprintable : c.IsPrintable := by
    refine ⟨hne, hwell, pairwise_of_forall_mem_list fun x hx _ _ h => ?_, ?_⟩
    · rw [helements x hx] at h
      cases h
    cases c with
    | nil => exact .nil
    | cons x c =>
      refine List.Pairwise.isChain (pairwise_cons.2 ⟨fun y hy _ => htail y hy, ?_⟩)
      exact pairwise_of_forall_mem_list fun _ _ y hy _ => htail y hy
  rw [← htext, Selector.parseList_render_iff (cons_ne_nil _ _)]
  · simpa [Selector.isClosed, Selector.compounds] using hclosed
  · simpa [Selector.IsPrintable, Selector.compounds] using hprintable

theorem Selector.parseList_render_classNames {names : List String} (hne : names ≠ [])
    (h : ∀ name ∈ names, '\x00' ∉ name.toList ∧ name.toList ≠ []) :
    Selector.parseList (⟨[], names.map className⟩ : Selector).render
      = .ok [⟨[], names.map className⟩] := by
  have htext : (⟨[], names.map className⟩ : Selector).render
      = Compound.render (names.map className) := by
    simp [Selector.render]
  have hmem : ∀ x ∈ names.map className, ∃ name ∈ names, x = .className name := by simp
  refine Selector.parseList_render_compound (by simpa using hne) ?_ (by simp [Simple.isClosed]) ?_ ?_
  · rintro _ hx
    obtain ⟨name, hname, rfl⟩ := hmem _ hx
    exact h name hname
  · simp [isPseudoElement]
  · intro x hx tag
    obtain ⟨name, -, rfl⟩ := hmem x (mem_of_mem_tail hx)
    exact Simple.noConfusion

end StyleBlocks
