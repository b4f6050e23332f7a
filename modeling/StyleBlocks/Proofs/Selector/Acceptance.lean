import StyleBlocks.Proofs.Selector.Grammar

/-!
# What the reader of selectors accepts

The reader goes through the components once.  It keeps the compound that it is in, and whether spaces
stand behind it; what it accepts this way is what the grammar says.

Main result: `mapM_readListItem_eq_ok_iff`.
-/

namespace StyleBlocks

open List Component Selector

variable {body cs lead more pad part rest trail : List Component} {c : Component} {k : Combinator}
  {location stop : Location} {context : List (Compound × Combinator)} {current : Compound}
  {spaced : Bool} {s : Selector} {x : Simple} {xs : List Simple} {item : List Component × Location}

/-! ## One component more -/

theorem ne_space_of_isFiller (h : c.isFiller = false) (text : String) : c.token ≠ .space text := by
  intro htext
  rw [isFiller, htext] at h
  cases h

theorem dropWhile_isComment_cons (h : c.isComment = false) (rest : List Component) :
    (c :: rest).dropWhile isComment = c :: rest :=
  dropWhile_cons_of_neg (by simp [h])

theorem readSelector_nil (h : cs.dropWhile isComment = []) :
    readSelector stop context current spaced cs
      = if current.isEmpty then .error (stop, .expectedSelector) else .ok ⟨context, current⟩ := by
  rw [readSelector]
  split
  · rfl
  · rename_i heq
    rw [h] at heq
    cases heq

theorem readSelector_space {text : String} (h : cs.dropWhile isComment = c :: rest)
    (hc : c.token = .space text) : readSelector stop context current spaced cs
      = readSelector stop context current (!current.isEmpty) rest := by
  rw [readSelector]
  split
  · rename_i heq
    rw [h] at heq
    cases heq
  rename_i heq
  rw [h] at heq
  cases heq
  split
  · rfl
  · rename_i hne
    exact absurd hc (hne text)

theorem readSelector_combinator (h : cs.dropWhile isComment = c :: rest)
    (hc : combinator? c.token = some k) : readSelector stop context current spaced cs
      = if current.isEmpty then .error (headLocation stop cs, .unexpectedCombinator k.symbol)
        else readSelector stop (context ++ [(current, k)]) [] false rest := by
  rw [readSelector]
  split
  · rename_i heq
    rw [h] at heq
    cases heq
  rename_i heq
  rw [h] at heq
  cases heq
  split
  · rename_i hspace
    rw [hspace] at hc
    cases hc
  · rw [hc]

theorem readSelector_condition (h : cs.dropWhile isComment = c :: rest)
    (hspace : ∀ text, c.token ≠ .space text) (hc : combinator? c.token = none) :
    readSelector stop context current spaced cs
      = match readSimple stop (headLocation stop cs) c rest with
        | .error e => .error e
        | .ok (simple, rest) =>
          if spaced then readSelector stop (context ++ [(current, .descendant)]) [simple] false rest
          else if current.any Simple.isPseudoElement && !simple.isPseudoElement then
            .error (headLocation stop cs, .afterPseudoElement simple.render)
          else readSelector stop context (current ++ [simple]) false rest := by
  rw [readSelector]
  split
  · rename_i heq
    rw [h] at heq
    cases heq
  rename_i heq
  rw [h] at heq
  cases heq
  split
  · rename_i htext
    exact absurd htext (hspace _)
  rw [hc]
  dsimp only
  split
  all_goals
    rename_i hs
    rw [hs]

theorem spaces_nil : Spaces [] :=
  forall_mem_nil _

theorem Spaces.append (h : Spaces pad) (h' : Spaces trail) : Spaces (pad ++ trail) :=
  forall_mem_append.2 ⟨h, h'⟩

theorem Compound.AreWritten.concat (h : AreWritten rest xs) (hx : Simple.IsWritten part x) :
    AreWritten (rest ++ part) (xs ++ [x]) := by
  induction h with
  | nil => simpa using cons hx .nil
  | cons hy _ ih => simpa using cons hy ih

theorem Compound.elementsLast_concat_iff : Compound.ElementsLast (current ++ [x])
    ↔ current.ElementsLast ∧ (current.any Simple.isPseudoElement && !x.isPseudoElement) = false := by
  simp [Compound.ElementsLast, pairwise_append, Bool.and_eq_false_imp]

/-- What is read is written: the components `part` of `current` and the spaces behind them are read
already. -/
theorem isWritten_of_readSelector (h : readSelector stop context current spaced cs = .ok s)
    (hcurrent : Compound.AreWritten part current)
    (helements : current.ElementsLast)
    (hpad : Spaces pad) (hspaced : spaced = (!current.isEmpty && !pad.isEmpty)) :
    ∃ tail lead body trail, s.context = context ++ tail ∧ Spaces lead ∧ Spaces trail ∧
      (current ≠ [] → lead = []) ∧ part ++ (pad ++ uncommented cs) = lead ++ (body ++ trail) ∧
      IsWritten body ⟨tail, s.key⟩ := by
  fun_induction readSelector stop context current spaced cs generalizing part pad with
  | case1 | case4 | case6 | case8 => cases h
  | case2 context current spaced cs hd hempty =>
    cases h
    refine ⟨[], [], part, pad, (append_nil _).symm, spaces_nil, hpad, fun _ => rfl,
      by simp [uncommented_eq_nil_iff.2 hd], .key ⟨by simpa using hempty, hcurrent, helements⟩⟩
  | case3 context current spaced cs c rest hd _ text htoken ih =>
    have hc : Spaces [c] := forall_mem_singleton.2 (by rw [isFiller, htoken]; rfl)
    simpa [uncommented_eq_cons hd] using ih h hcurrent helements (hpad.append hc) (by simp)
  | case5 context current spaced cs c rest hd _ k hempty _ hk ih =>
    obtain ⟨tail, lead, body, trail, hcontext, hlead, htrail, -, hrest, hbody⟩ :=
      ih h .nil .nil spaces_nil rfl
    refine ⟨(current, k) :: tail, [], part ++ (pad ++ c :: lead ++ body), trail, by simp [hcontext],
      spaces_nil, htrail, fun _ => rfl, ?_, ?_⟩
    · have hrest : uncommented rest = lead ++ (body ++ trail) := hrest
      simp [uncommented_eq_cons hd, hrest]
    · exact .cons ⟨by simpa using hempty, hcurrent, helements⟩ (.written hpad hk hlead) hbody
  | case7 context current cs c rest hd _ x rest' hs _ _ ih =>
    obtain ⟨hne, hpad'⟩ : current ≠ [] ∧ pad ≠ [] := by simpa using hspaced
    obtain ⟨q, hx, hrest⟩ := isWritten_of_readSimple hs
    obtain ⟨tail, lead, body, trail, hcontext, -, htrail, hlead, hrest', hbody⟩ :=
      ih h (.cons hx .nil) (pairwise_singleton _ _) spaces_nil rfl
    obtain rfl := hlead (by simp)
    refine ⟨(current, .descendant) :: tail, [], part ++ (pad ++ body), trail, by simp [hcontext],
      spaces_nil, htrail, fun _ => rfl, ?_, ?_⟩
    · simp [uncommented_eq_cons hd, hrest] at hrest' ⊢
      rw [hrest']
    · exact .cons ⟨hne, hcurrent, helements⟩ (.descendant hpad hpad') hbody
  | case9 context current spaced cs c rest hd _ x rest' hs hspaced' hkind _ _ ih =>
    obtain ⟨q, hx, hrest⟩ := isWritten_of_readSimple hs
    obtain ⟨tail, lead, body, trail, hcontext, -, htrail, hlead, hrest', hbody⟩ :=
      ih h (hcurrent.concat hx) (Compound.elementsLast_concat_iff.2 ⟨helements, by simpa using hkind⟩)
        spaces_nil (by simp)
    obtain rfl := hlead (by simp)
    simp only [uncommented_eq_cons hd, hrest, append_assoc, nil_append] at hrest' ⊢
    cases current with
    | nil =>
      cases hcurrent
      refine ⟨tail, pad, body, trail, hcontext, hpad, htrail, fun hne => absurd rfl hne, ?_, hbody⟩
      rw [cons_append, nil_append] at hrest'
      rw [hrest', nil_append]
    | cons y ys =>
      obtain rfl : pad = [] := by simpa [hspaced'] using hspaced
      exact ⟨tail, [], body, trail, hcontext, spaces_nil, htrail, fun _ => rfl, hrest', hbody⟩

theorem exists_readSelector_spaces (hpad : Spaces pad) (h : uncommented cs = pad ++ more) :
    ∃ rest, uncommented rest = more ∧ readSelector stop context current spaced cs
      = readSelector stop context current (if pad.isEmpty then spaced else !current.isEmpty) rest := by
  induction pad generalizing cs spaced with
  | nil => exact ⟨cs, h, rfl⟩
  | cons e pad ih =>
    obtain ⟨he, hpad⟩ := forall_mem_cons.1 hpad
    have hcomment : e.isComment = false := by
      have hmem : e ∈ uncommented cs := h ▸ mem_cons_self
      simpa using (mem_filter.1 hmem).2
    obtain ⟨text, htext⟩ : ∃ text, e.token = .space text := by
      rw [isFiller] at he
      rw [isComment] at hcomment
      cases ht : e.token with
      | space text => exact ⟨text, rfl⟩
      | _ => simp_all [Token.isFiller, Token.isComment]
    obtain ⟨rest, hd, hrest⟩ := uncommented_eq_cons_iff.1 h
    obtain ⟨rest', hrest', hread⟩ := @ih rest (!current.isEmpty) hpad hrest
    refine ⟨rest', hrest', ?_⟩
    rw [readSelector_space hd htext, hread, ite_self]
    rfl

theorem readSelector_simple (hx : Simple.IsWritten part x) (hgrouped : ∀ c ∈ part, c.IsGrouped)
    (h : uncommented cs = part ++ more) (stop : Location) (context : List (Compound × Combinator))
    (current : Compound) :
    readSelector stop context current true cs = readSelector stop
      (context ++ [(current, .descendant)]) [x] false (behind part.length cs) ∧
    ((current.any Simple.isPseudoElement && !x.isPseudoElement) = false →
      readSelector stop context current false cs
        = readSelector stop context (current ++ [x]) false (behind part.length cs)) := by
  obtain ⟨-, c, q, rfl, hc, hk⟩ := hx.isPlain hgrouped
  obtain ⟨rest, hd, hrest⟩ := uncommented_eq_cons_iff.1 h
  have hread := readSimple_of_isWritten stop (headLocation stop cs) (hgrouped c mem_cons_self)
    hx hrest
  have hbehind : behind (c :: q).length cs = behind q.length rest := by
    rw [length_cons, behind, hd, tail_cons]
  rw [readSelector_condition hd (ne_space_of_isFiller hc) hk,
    readSelector_condition hd (ne_space_of_isFiller hc) hk, hread, hbehind]
  exact ⟨rfl, fun hkind => by simp only [Bool.false_eq_true, if_false, hkind]⟩

theorem exists_readSelector_conditions (hxs : Compound.AreWritten part xs)
    (hgrouped : ∀ c ∈ part, c.IsGrouped)
    (helements : Compound.ElementsLast (current ++ xs)) (h : uncommented cs = part ++ more) :
    ∃ rest, uncommented rest = more ∧ readSelector stop context current false cs
      = readSelector stop context (current ++ xs) false rest := by
  induction hxs generalizing current cs with
  | nil => exact ⟨cs, h, by rw [append_nil]⟩
  | @cons part tail x xs hx hxs ih =>
    rw [append_assoc] at h
    obtain ⟨hpart, htail⟩ := forall_mem_append.1 hgrouped
    rw [append_cons] at helements
    have hkind := (Compound.elementsLast_concat_iff.1 (pairwise_append.1 helements).1).2
    obtain ⟨rest, hrest, hread⟩ := ih htail helements (uncommented_behind h)
    refine ⟨rest, hrest, ?_⟩
    rw [(readSelector_simple hx hpart h stop context current).2 hkind, hread, ← append_cons]

theorem Simple.IsWritten.readSelector_append (hx : Simple.IsWritten part x)
    (hgrouped : ∀ c ∈ part, c.IsGrouped)
    (hkind : (current.any Simple.isPseudoElement && !x.isPseudoElement) = false)
    (rest : List Component) : readSelector stop context current false (part ++ rest)
      = readSelector stop context (current ++ [x]) false rest := by
  have hplain : ∀ c ∈ part, c.isComment = false := fun c hc => ((hx.isPlain hgrouped).1 c hc).1
  have hcs : uncommented (part ++ rest) = part ++ uncommented rest := by
    rw [uncommented, filter_append, filter_eq_self.2 fun c hc => by simp [hplain c hc]]
    rfl
  rw [(readSelector_simple hx hgrouped hcs stop context current).2 hkind, behind_append hplain]

theorem Selector.IsWritten.exists_first (h : Selector.IsWritten body s) :
    ∃ q x more xs, Simple.IsWritten q x ∧ body = q ++ more ∧ s.compounds.flatten = x :: xs := by
  have hfirst : ∀ {part c}, Compound.IsWritten part c → ∃ q x more xs, Simple.IsWritten q x ∧
      part = q ++ more ∧ c = x :: xs := by
    intro part c hc
    cases hc.conditions with
    | nil => exact absurd rfl hc.ne_nil
    | cons hx => exact ⟨_, _, _, _, hx, rfl, rfl⟩
  cases h with
  | key hkey =>
    obtain ⟨q, x, more, xs, hx, rfl, rfl⟩ := hfirst hkey
    exact ⟨q, x, more, _, hx, rfl, rfl⟩
  | cons hc =>
    obtain ⟨q, x, more, xs, hx, rfl, rfl⟩ := hfirst hc
    exact ⟨q, x, _, _, hx, append_assoc .., rfl⟩

theorem readSelector_descendant (h : IsWritten body s) (hgrouped : ∀ c ∈ body, c.IsGrouped)
    (hcs : uncommented cs = body ++ more) : readSelector stop context current true cs
      = readSelector stop (context ++ [(current, .descendant)]) [] false cs := by
  obtain ⟨q, x, rest, -, hx, rfl, -⟩ := h.exists_first
  rw [append_assoc] at hcs
  have hread := readSelector_simple hx (forall_mem_append.1 hgrouped).1 hcs stop
  rw [(hread context current).1, (hread _ []).2 rfl]
  rfl

theorem exists_readSelector_compound {c : Compound} (hc : Compound.IsWritten part c)
    (hgrouped : ∀ c ∈ part, c.IsGrouped) (hlead : Spaces lead)
    (hcs : uncommented cs = lead ++ (part ++ more)) :
    ∃ rest, uncommented rest = more ∧
      readSelector stop context [] false cs = readSelector stop context c false rest := by
  obtain ⟨cs₁, hcs₁, hread⟩ := exists_readSelector_spaces hlead hcs
  have helements : Compound.ElementsLast ([] ++ c) := hc.elements
  obtain ⟨cs₂, hcs₂, hread₁⟩ :=
    exists_readSelector_conditions hc.conditions hgrouped helements hcs₁
  refine ⟨cs₂, hcs₂, ?_⟩
  rw [hread, isEmpty_nil, Bool.not_true, ite_self, hread₁, nil_append]

/-- **What is written is read.** -/
theorem readSelector_of_isWritten (h : IsWritten body s)
    (hgrouped : ∀ c ∈ body, c.IsGrouped) (hlead : Spaces lead) (htrail : Spaces trail)
    (hcs : uncommented cs = lead ++ (body ++ trail)) :
    readSelector stop context [] false cs = .ok ⟨context ++ s.context, s.key⟩ := by
  induction h generalizing lead cs context with
  | @key part key hkey =>
    obtain ⟨cs₁, hcs₁, hread⟩ := exists_readSelector_compound hkey hgrouped hlead hcs
    rw [← append_nil trail] at hcs₁
    obtain ⟨cs₂, hcs₂, hread₁⟩ := exists_readSelector_spaces htrail hcs₁
    rw [hread, hread₁, readSelector_nil (uncommented_eq_nil_iff.1 hcs₂)]
    simp [hkey.ne_nil]
  | @cons part joint rest c key k tail hc hk hrest ih =>
    rw [append_assoc, append_assoc] at hcs
    obtain ⟨hpart, hgrouped⟩ := forall_mem_append.1 hgrouped
    have hrest' := (forall_mem_append.1 hgrouped).2
    obtain ⟨cs₁, hcs₁, hread⟩ := exists_readSelector_compound hc hpart hlead hcs
    have hempty : (!c.isEmpty) = true := by simp [hc.ne_nil]
    rw [hread, append_cons context (c, k) tail]
    cases hk with
    | descendant hpad hne =>
      obtain ⟨cs₂, hcs₂, hread₁⟩ := exists_readSelector_spaces hpad hcs₁
      rw [hread₁, if_neg (by simpa using hne), hempty, readSelector_descendant hrest hrest' hcs₂]
      exact ih hrest' spaces_nil hcs₂
    | @written before behind d k hbefore hd hbehind =>
      rw [append_assoc] at hcs₁
      obtain ⟨cs₂, hcs₂, hread₁⟩ := exists_readSelector_spaces hbefore hcs₁
      obtain ⟨cs₃, hcs₃, hcs₄⟩ := uncommented_eq_cons_iff.1 hcs₂
      rw [hread₁, readSelector_combinator hcs₃ hd, if_neg (by simpa using hempty)]
      exact ih hrest' hbehind hcs₄

/-! ## The grammar and the reader -/

/-- Nothing but the selector, spaces and comments. -/
def Selector.Fills (cs : List Component) (s : Selector) : Prop :=
  ∃ lead body trail, uncommented cs = lead ++ (body ++ trail) ∧ Spaces lead ∧ Spaces trail ∧
    Selector.IsWritten body s

/-- **A selector is read where nothing else stands.** -/
theorem readSelector_eq_ok_iff (stop : Location) (hgrouped : ∀ c ∈ uncommented cs, c.IsGrouped) :
    readSelector stop [] [] false cs = .ok s ↔ Fills cs s := by
  constructor
  · intro h
    obtain ⟨tail, lead, body, trail, hcontext, hlead, htrail, -, hcs, hbody⟩ :=
      isWritten_of_readSelector h .nil .nil spaces_nil rfl
    obtain rfl : s.context = tail := hcontext
    exact ⟨lead, body, trail, hcs, hlead, htrail, hbody⟩
  · rintro ⟨lead, body, trail, hcs, hlead, htrail, hbody⟩
    refine readSelector_of_isWritten hbody (fun c hc => hgrouped c ?_) hlead htrail hcs
    simp [hcs, hc]

theorem readListItem_eq_ok_iff (hgrouped : ∀ c ∈ uncommented item.1, c.IsGrouped) :
    readListItem item = .ok s ↔ Fills item.1 s := by
  rw [readListItem, ← readSelector_eq_ok_iff item.2 hgrouped]
  have hcs := takeWhile_append_dropWhile (p := isFiller) (l := uncommented item.1)
  rw [dropWhile_uncommented] at hcs
  obtain ⟨rest, hrest, hread⟩ := exists_readSelector_spaces
    (fun _ hd => mem_takeWhile_imp hd) hcs.symm
  rw [hread, isEmpty_nil, Bool.not_true, ite_self]
  have hdrop : ∀ c ∈ uncommented (item.1.dropWhile isFiller), c.IsGrouped := by
    intro c hc
    exact hgrouped c (hcs ▸ mem_append_right _ hc)
  rw [readSelector_eq_ok_iff _ hdrop, readSelector_eq_ok_iff _ (hrest ▸ hdrop), Fills, Fills, hrest]

/-! ## Lists of selectors -/

theorem exists_splitCommas (stop : Location) (cs : List Component) :
    ∃ part location parts, splitCommas stop cs = (part, location) :: parts := by
  cases cs with
  | nil => exact ⟨_, _, _, rfl⟩
  | cons c cs =>
    rw [splitCommas]
    split
    · exact ⟨_, _, _, rfl⟩
    · split <;> exact ⟨_, _, _, rfl⟩

theorem infix_of_mem_splitCommas (h : item ∈ splitCommas stop cs) : item.1 <:+: cs := by
  suffices hprefix : (∀ part ∈ splitCommas stop cs, part.1 <:+: cs) ∧
      ∀ part, (splitCommas stop cs).head? = some part → part.1 <+: cs from hprefix.1 item h
  clear h
  induction cs with
  | nil => simp [splitCommas]
  | cons c cs ih =>
    rw [splitCommas]
    split
    · refine ⟨forall_mem_cons.2 ⟨List.nil_infix, fun part hpart => ?_⟩, ?_⟩
      · exact (ih.1 part hpart).trans (suffix_cons c cs).isInfix
      · intro part hpart
        cases hpart
        exact nil_prefix
    obtain ⟨part, location, parts, hsplit⟩ := exists_splitCommas stop cs
    rw [hsplit] at ih ⊢
    have hfirst : c :: part <+: c :: cs := cons_prefix_cons.2 ⟨rfl, ih.2 _ rfl⟩
    refine ⟨forall_mem_cons.2 ⟨hfirst.isInfix, fun part hpart => ?_⟩, ?_⟩
    · exact (ih.1 part (mem_cons_of_mem _ hpart)).trans (suffix_cons c cs).isInfix
    · intro part hpart
      cases hpart
      exact hfirst

theorem isGrouped_of_mem_splitCommas (hgrouped : ∀ c ∈ cs, c.IsGrouped)
    (hitem : item ∈ splitCommas stop cs) : ∀ c ∈ uncommented item.1, c.IsGrouped := by
  intro c hc
  exact hgrouped c ((infix_of_mem_splitCommas hitem).subset (filter_sublist.subset hc))

/-- **A part of a list is read as a selector exactly if it is written as one**, whatever the tokens
of the list are. -/
theorem readListItem_exact (stop : Location) (ls : List Lexeme) {item : List Component × Location}
    (hitem : item ∈ splitCommas stop (Component.group stop ls)) (s : Selector) :
    (readListItem item = .ok s ↔ Selector.Fills item.1 s) ∧
      (readSelector item.2 [] [] false item.1 = .ok s ↔ Selector.Fills item.1 s) := by
  have hgrouped := isGrouped_of_mem_splitCommas (Component.isGrouped_group stop ls) hitem
  exact ⟨readListItem_eq_ok_iff hgrouped, readSelector_eq_ok_iff item.2 hgrouped⟩

theorem readListItem_exact_child :
    let ls : List Lexeme :=
      [.space " ", .delim '.', .ident "a", .space " ", .delim '>', .ident "b", .comma, .colon].map
        fun token => ⟨token, [], .nowhere⟩
    ∃ item ∈ splitCommas .nowhere (Component.group .nowhere ls),
      readListItem item = .ok ⟨[([.className "a"], .child)], [.tag "b"]⟩ := by
  intro ls
  have hitem : _ ∈ splitCommas .nowhere (Component.group .nowhere ls) := List.mem_cons_self
  have hspace : Spaces [.leaf ⟨.space " ", [], .nowhere⟩] := List.forall_mem_singleton.2 rfl
  have ha : Compound.IsWritten _ [.className "a"] :=
    ⟨by simp, .cons (.className (c := .leaf ⟨.delim '.', [], .nowhere⟩)
      (d := .leaf ⟨.ident "a", [], .nowhere⟩) rfl rfl) .nil, List.pairwise_singleton _ _⟩
  have hb : Compound.IsWritten _ [.tag "b"] :=
    ⟨by simp, .cons (.tag (c := .leaf ⟨.ident "b", [], .nowhere⟩) rfl) .nil,
      List.pairwise_singleton _ _⟩
  have hk : Combinator.IsWritten _ .child :=
    .written (c := .leaf ⟨.delim '>', [], .nowhere⟩) hspace rfl spaces_nil
  exact ⟨_, hitem, (readListItem_exact .nowhere ls hitem _).1.2
    ⟨[_], _, [], rfl, hspace, spaces_nil, .cons ha hk (.key hb)⟩⟩

/-- **A list of selectors is read where every part between its commas is filled by one.** -/
theorem mapM_readListItem_eq_ok_iff {ss : List Selector} (hgrouped : ∀ c ∈ cs, c.IsGrouped) :
    (splitCommas stop cs).mapM readListItem = .ok ss
      ↔ Forall₂ (fun item s => Fills item.1 s) (splitCommas stop cs) ss := by
  have hitem : ∀ item ∈ splitCommas stop cs, ∀ s, readListItem item = .ok s ↔ Fills item.1 s := by
    intro item hitem s
    exact readListItem_eq_ok_iff (isGrouped_of_mem_splitCommas hgrouped hitem)
  rw [mapM_eq_ok_iff]
  constructor
  · intro h
    exact ((forall₂_and_left _ _).2 ⟨hitem, h⟩).imp fun _ s hs => (hs.1 s).1 hs.2
  · intro h
    exact ((forall₂_and_left _ _).2 ⟨hitem, h⟩).imp fun _ s hs => (hs.1 s).2 hs.2

theorem Selector.IsWritten.exists_of_mem (h : Selector.IsWritten body s) {c : Compound}
    (hc : c ∈ s.compounds) : ∃ part, part <:+: body ∧ Compound.IsWritten part c := by
  induction h with
  | @key part key hkey =>
    rw [mem_singleton.1 hc]
    exact ⟨part, infix_refl part, hkey⟩
  | @cons part joint rest c' key k context hc' _ _ ih =>
    rcases mem_cons.1 hc with rfl | hc
    · exact ⟨part, (prefix_append part _).isInfix, hc'⟩
    · obtain ⟨q, hq, hcompound⟩ := ih hc
      exact ⟨q, hq.trans ((suffix_append joint rest).trans (suffix_append part _)).isInfix,
        hcompound⟩

theorem Selector.Fills.exists_first (h : Selector.Fills (c :: cs) s) (hc : c.isFiller = false) :
    ∃ q x xs, Simple.IsWritten (c :: q) x ∧ s.compounds.flatten = x :: xs := by
  obtain ⟨lead, body, trail, hcs, hlead, -, hbody⟩ := h
  obtain ⟨q, x, more, xs, hx, rfl, hxs⟩ := hbody.exists_first
  rw [uncommented_eq_cons (dropWhile_isComment_cons (isComment_of_isFiller hc) cs)] at hcs
  cases lead with
  | nil =>
    obtain ⟨d, q, rfl⟩ : ∃ d q', q = d :: q' := by cases hx <;> exact ⟨_, _, rfl⟩
    obtain rfl : c = d := (List.cons.inj hcs).1
    exact ⟨q, x, xs, hx, hxs⟩
  | cons d lead =>
    rw [(List.cons.inj hcs).1, hlead d mem_cons_self] at hc
    cases hc

theorem Selector.Fills.exists_of_mem (h : Selector.Fills cs s) {c : Compound}
    (hc : c ∈ s.compounds) : ∃ part, part <:+: uncommented cs ∧ Compound.IsWritten part c := by
  obtain ⟨lead, body, trail, hcs, -, -, hbody⟩ := h
  obtain ⟨part, hpart, hcompound⟩ := hbody.exists_of_mem hc
  exact ⟨part, hpart.trans ⟨lead, trail, by simp [hcs]⟩, hcompound⟩

theorem Compound.AreWritten.exists_of_mem (h : Compound.AreWritten part xs) (hx : x ∈ xs) :
    ∃ q, q <:+: part ∧ Simple.IsWritten q x := by
  induction h with
  | nil => cases hx
  | @cons q rest y ys hy _ ih =>
    rcases mem_cons.1 hx with rfl | hx
    · exact ⟨q, (prefix_append q rest).isInfix, hy⟩
    · obtain ⟨q', hq', hx'⟩ := ih hx
      exact ⟨q', hq'.trans (suffix_append q rest).isInfix, hx'⟩

end StyleBlocks
