import StyleBlocks.Proofs.Selector.RoundTrip

/-!
# References that are read back

The text of a path has its names as they stand.  Alone or behind the name of a block, it is read back
as that path if and only if all names are identifiers: a name that is none would have to be written
with escapes.
-/

namespace StyleBlocks

open List StateName

variable {path : ObjectPath}

/-- Before the names of a path stand marks, which are no part of an identifier; a dot may begin a
number. -/
theorem Token.read_of_mark {c : Char} (h : c ∈ ['.', '[', ':']) (s : List Char) :
    (Token.read c s).1.isFiller = false ∧ (Token.read c s).1 ≠ .comma ∧
      ∀ name, (Token.read c s).1 ≠ .ident name := by
  simp only [mem_cons, not_mem_nil, or_false] at h
  rcases h with rfl | rfl | rfl
  · unfold Token.read
    split
    · have hword := isWord_readNumeric ('.' :: s)
      refine ⟨hword.isFiller, hword.ne_comma, fun name h => ?_⟩
      have hnone := isNameLike_readNumeric ('.' :: s)
      rw [h] at hnone
      cases hnone
    · exact ⟨rfl, nofun, nofun⟩
  · exact ⟨rfl, nofun, nofun⟩
  · exact ⟨rfl, nofun, nofun⟩

def StateName.toAttribute (s : StateName) : Attribute :=
  match s.group with
  | none => ⟨some stateSpace, s.name, none, none, false⟩
  | some group => ⟨some stateSpace, group, some .equals, some s.name, false⟩

theorem Simple.IsWritten.tag?_eq_some_iff {c : Component} {name : String} {q : List Component} {x : Simple}
    (h : Simple.IsWritten (c :: q) x) (hc : c.IsGrouped) :
    x.tag? = some name ↔ c.token = .ident name := by
  cases h with
  | tag hc => simp [Simple.tag?, hc]
  | hasAttribute =>
    have htoken := Token.eq_opener_square hc.1
    simp [Simple.tag?, Component.token, Component.lexeme, htoken]
  | universal hc | id hc | className hc | pseudoClass hc | oneColon hc | pseudoElement hc =>
    simp [Simple.tag?, hc]

namespace ObjectPath

variable {p : ObjectPath} {block : Option String} {name : String}

/-- The names in a path, that of the block apart, are identifiers. -/
def namesAreIdentifiers (p : ObjectPath) : Bool :=
  p.className.all isIdentifier &&
    p.state.all fun state => state.group.all isIdentifier && isIdentifier state.name

/-! ## The text of a path -/

def closing (p : ObjectPath) : List Char :=
  if p.state.isSome then [']'] else []

theorem toList_render (hroot : p ≠ root) :
    p.render.toList = p.pieces.flatMap Piece.chars ++ p.closing := by
  obtain ⟨_ | block, _ | className, _ | ⟨_ | group, state⟩⟩ := p
  · exact absurd rfl hroot
  all_goals simp [render, StateName.render, pieces, StateName.pieces, closing, Piece.chars]

theorem render_block (hlocal : p.block = none) (hroot : p ≠ root) :
    ({ p with block := block } : ObjectPath).render = block.getD "" ++ p.render := by
  obtain ⟨own, className, state⟩ := p
  obtain rfl : own = none := hlocal
  rcases block with _ | block <;> rcases className with _ | className <;>
    rcases state with _ | ⟨_ | group, state⟩
  any_goals exact absurd rfl hroot
  all_goals simp [render, String.append_assoc]

theorem ne_root_block (hlocal : p.block = none) (hroot : p ≠ root) :
    ({ p with block := block } : ObjectPath) ≠ root := by
  intro h
  obtain ⟨own, className, state⟩ := p
  obtain rfl : own = none := hlocal
  cases h
  exact hroot rfl

theorem mem_of_mark_mem {c : Char} (h : .mark c ∈ p.pieces) : c ∈ ['.', '[', '|', '='] := by
  obtain ⟨_ | block, _ | className, _ | ⟨_ | group, state⟩⟩ := p <;>
    simp [pieces, StateName.pieces] at h ⊢ <;> tauto

theorem namesAreIdentifiers_iff : p.block.all isIdentifier = true ∧ p.namesAreIdentifiers = true ↔
    ∀ q ∈ p.pieces, ∀ name, q.text? = some name → isIdentifier name = true := by
  have hstate : isIdentifier stateSpace = true := by decide +kernel
  obtain ⟨_ | block, _ | className, _ | ⟨_ | group, state⟩⟩ := p <;>
    simp [namesAreIdentifiers, pieces, StateName.pieces, Piece.text?, hstate]

/-! ## Identifiers are read back -/

def conditions (p : ObjectPath) : Compound :=
  (p.block.map Simple.tag).toList ++ ((p.className.map Simple.className).toList
    ++ (p.state.map fun s => Simple.hasAttribute s.toAttribute).toList)

theorem render_conditions (hroot : p ≠ root) (hblock : p.block.all isIdentifier = true)
    (h : p.namesAreIdentifiers = true) : p.conditions.render = p.render := by
  have hclass {name : String} (hname : isIdentifier name = true) :
      String.ofList (writeIdentifier name.toList) = name := by
    rw [writeIdentifier_of_isIdentifier hname, String.ofList_toList]
  obtain ⟨_ | block, _ | className, _ | ⟨_ | group, state⟩⟩ := p
  · exact absurd rfl hroot
  all_goals
    simp_all [namesAreIdentifiers, conditions, Compound.render, Simple.render, Attribute.render,
      Attribute.test, toAttribute, render, StateName.render, AttributeMatcher.symbol, String.append_assoc]

theorem parseList_render (hroot : p ≠ root) (hblock : p.block.all isIdentifier = true)
    (h : p.namesAreIdentifiers = true) : Selector.parseList p.render = .ok [⟨[], p.conditions⟩] := by
  have hspace : isIdentifier stateSpace = true := by decide +kernel
  have hnul {name : String} (hname : isIdentifier name = true) : NulFree name :=
    nulFree_of_isIdentifier hname
  have hall : ∀ x ∈ p.conditions, x.IsWellNamed ∧ x.isClosed = true ∧ x.isPseudoElement = false := by
    intro x hx
    simp only [namesAreIdentifiers, Bool.and_eq_true] at h
    simp only [conditions, mem_append, Option.mem_toList, Option.map_eq_some_iff] at hx
    rcases hx with ⟨name, hname, rfl⟩ | ⟨name, hname, rfl⟩ | ⟨⟨_ | group, name⟩, hname, rfl⟩ <;>
      simp only [hname, Option.all_some, Option.all_none, Bool.and_eq_true, Bool.true_and] at h hblock
    · exact ⟨hblock, rfl, rfl⟩
    · exact ⟨⟨hnul h.1, toList_ne_nil_of_isIdentifier h.1⟩, rfl, rfl⟩
    · exact ⟨⟨by simp [toAttribute, hspace], h.2, nofun, rfl⟩, rfl, rfl⟩
    · exact ⟨⟨by simp [toAttribute, hspace], h.2.1,
        by simp [toAttribute, Attribute.test, hnul h.2.2], rfl⟩, rfl, rfl⟩
  rw [← render_conditions hroot hblock h]
  refine Selector.parseList_render_compound ?_ (fun x hx => (hall x hx).1)
    (all_eq_true.2 fun x hx => (hall x hx).2.1) (fun x hx => (hall x hx).2.2) ?_
  · obtain ⟨_ | block, _ | className, _ | state⟩ := p
    · exact absurd rfl hroot
    all_goals simp [conditions]
  · obtain ⟨_ | block, _ | className, _ | state⟩ := p <;>
      simp [conditions]

theorem ofCompound_conditions (hclass : p.className ≠ some "root") (hroot : p ≠ root) :
    ofCompound p.conditions = .ok (p, []) := by
  obtain ⟨_ | block, _ | className, _ | ⟨_ | group, state⟩⟩ := p
  · exact absurd rfl hroot
  all_goals
    simp_all [conditions, ofCompound, Reading.step, Reading.finish, toAttribute, stateOf, bind,
      Except.bind, Except.map, pure, Except.pure, root]

theorem parse_of_parseList {reference : String} {key : Compound}
    (h : Selector.parseList reference = .ok [⟨[], key⟩]) (hkey : ofCompound key = .ok (path, [])) :
    ObjectPath.parse reference = .ok path := by
  have hparse : Selector.parse reference = .ok ⟨[], key⟩ := by
    rw [Selector.parse, h]
    rfl
  rw [ObjectPath.parse, hparse]
  change (ofCompound key >>= _) = _
  rw [hkey]
  rfl

theorem parseList_name_scope (hname : isIdentifier name = true) :
    Selector.parseList (name ++ ":scope") = .ok [⟨[], [.tag name, .pseudoClass "scope" none]⟩] := by
  have hscope : (Simple.pseudoClass "scope" none).IsWellNamed :=
    ⟨by decide +kernel, by decide +kernel, fun _ => by decide +kernel, by simp⟩
  have htext : Compound.render [.tag name, .pseudoClass "scope" none] = name ++ ":scope" := by
    simp [Compound.render, Simple.render, renderArgument]
  rw [← htext]
  refine Selector.parseList_render_compound (cons_ne_nil _ _) ?_ rfl ?_ ?_
  · simp only [mem_cons, not_mem_nil, or_false, forall_eq_or_imp, forall_eq]
    exact ⟨hname, hscope⟩
  · simp [Simple.isPseudoElement]
  · simp

/-- **A path with identifiers is read back**, behind the name of a block or alone. -/
theorem parse_block_render (hlocal : p.block = none) (hclass : p.className ≠ some "root")
    (hblock : block.all isIdentifier = true) (h : p.namesAreIdentifiers = true) :
    ObjectPath.parse (block.getD "" ++ p.render) = .ok { p with block := block } := by
  by_cases hroot : p = root
  · subst hroot
    cases block with
    | none =>
      have hscope : ObjectPath.parse (Option.none.getD "" ++ root.render) = .ok root := by
        decide +kernel
      exact hscope
    | some name => exact parse_of_parseList (parseList_name_scope hblock) rfl
  · have hne : ({ p with block := block } : ObjectPath) ≠ root := ne_root_block hlocal hroot
    have hpath := ofCompound_conditions (p := { p with block := block }) hclass hne
    rw [← render_block hlocal hroot]
    exact parse_of_parseList (parseList_render hne hblock h) hpath

/-! ## Nothing else is read back -/

/-- **Only identifiers are read back**: all pieces of the path are found in its text. -/
theorem isIdentifier_of_parse_render (hroot : p ≠ root) (h : ObjectPath.parse p.render = .ok p) :
    p.block.all isIdentifier = true ∧ p.namesAreIdentifiers = true := by
  obtain ⟨ls, hshows, hsub⟩ := shown_of_parse h
  refine namesAreIdentifiers_iff.2 (isIdentifier_of_shows hsub hshows (toList_render hroot) ?_ ?_)
  · unfold closing
    split <;> simp
  · rintro c hc rfl
    exact absurd (mem_of_mark_mem hc) (by decide)

/-- The same for the root.  The name of the block is read from some part of the text.  It does not
reach behind the colon, or it would end with `scope` there and with a backslash before it; and a
name that is read behind the colon is one of the ends of `scope`. -/
theorem isIdentifier_of_parse_name_scope
    (h : ObjectPath.parse (name ++ ":scope") = .ok ⟨some name, none, none⟩) :
    isIdentifier name = true := by
  have hcolon : Mark ':' := ⟨by decide, by decide, by decide, by decide, by decide⟩
  have hscope : ∀ s, s <:+ "scope".toList → ∀ c ∈ s, isNameChar c = true := by
    intro s hs c hc
    have : ∀ d ∈ "scope".toList, isNameChar d = true := all_eq_true.1 (by decide)
    exact this c (hs.subset hc)
  obtain ⟨ls, hshows, hsub⟩ := shown_of_parse h
  obtain ⟨l, hl, hident⟩ := exists_left_of_forall₂ hshows (show .name name ∈ _ from
    mem_cons_self)
  obtain ⟨c, t, ⟨before, hbefore⟩, htoken, -⟩ := Lexeme.exists_read_of_mem (hsub.subset hl)
  obtain ⟨hstart, hread⟩ := Lexeme.readName_of_token_eq_ident (htoken.symm.trans hident)
  have htext : before ++ c :: t = name.toList ++ ':' :: "scope".toList := by
    rw [hbefore]
    simp
  have hlength := readName_length_le (c :: t)
  rw [hread] at hlength
  rcases append_eq_append_iff.1 htext with ⟨inner, hname, htail⟩ | ⟨behind, -, htail⟩
  · by_cases hcross : (Token.read c t).2.length ≤ "scope".toList.length
    · rw [htail] at hread
      obtain ⟨u, out, hu, hread'⟩ := readName_append_mark hcolon inner "scope".toList
        (by rw [hread]; exact hcross)
      have hends : (readName "scope".toList).1 = "scope".toList := by
        have := readName_append_of_endsName (hscope _ (suffix_refl _)) endsName_nil
        rw [append_nil] at this
        rw [this]
      have hlast := congrArg (fun r => r.1.getLast?) (hread.symm.trans hread')
      rw [hends] at hlast
      simp [hname, hu] at hlast
    · have htotal := congrArg length htail
      have hinner := congrArg length hname
      simp only [length_append, length_cons, String.length_toList]
        at htotal hinner hlength hcross
      have hall := isNameChar_of_readName_length (c :: t) (by
        rw [hread]
        simp only [length_cons, String.length_toList]
        omega)
      rw [hread] at hall
      have hbackslash : '\\' ∉ c :: t := by
        have hb : '\\' ∉ ':' :: "scope".toList := by decide
        rw [htail, mem_append, not_or]
        refine ⟨fun hmem => ?_, hb⟩
        have := hall '\\' (by rw [hname]; simp [hmem])
        exact absurd this (by decide)
      have := startsIdent_readName hstart hbackslash
      rw [hread] at this
      exact isIdentifier_iff.2 ⟨this, hall⟩
  · have hsuffix : c :: t <:+ "scope".toList := by
      rcases suffix_cons_iff.1 ⟨behind, htail.symm⟩ with heq | hsuffix
      · rw [heq] at hstart
        exact absurd hstart (by decide)
      · exact hsuffix
    have hall := hscope _ hsuffix
    have hself := readName_append_of_endsName hall endsName_nil
    rw [append_nil, hread] at hself
    have hname : name.toList = c :: t := congrArg Prod.fst hself
    exact isIdentifier_iff.2 ⟨hname ▸ hstart, hname ▸ hall⟩

/-- **Behind the name of a block the text of a path is read back exactly if all names are
identifiers.** -/
theorem parse_name_render_iff (hlocal : p.block = none) (hclass : p.className ≠ some "root") :
    ObjectPath.parse (name ++ p.render) = .ok { p with block := some name } ↔
      isIdentifier name = true ∧ p.namesAreIdentifiers = true := by
  refine ⟨fun h => ?_, fun h => @parse_block_render p (some name) hlocal hclass h.1 h.2⟩
  by_cases hroot : p = root
  · subst hroot
    exact ⟨isIdentifier_of_parse_name_scope h, rfl⟩
  have htext : ({ p with block := some name } : ObjectPath).render = name ++ p.render :=
    render_block hlocal hroot
  rw [← htext] at h
  exact isIdentifier_of_parse_render (ne_root_block hlocal hroot) h

/-- **Alone the text of a path is read back exactly if its names are identifiers.** -/
theorem parse_render_iff (hlocal : p.block = none) (hclass : p.className ≠ some "root") :
    ObjectPath.parse p.render = .ok p ↔ p.namesAreIdentifiers = true := by
  have hself : ({ p with block := none } : ObjectPath) = p := by rw [← hlocal]
  have htext : Option.none.getD "" ++ p.render = p.render := String.empty_append
  constructor
  · intro h
    by_cases hroot : p = root
    · subst hroot
      rfl
    · exact (isIdentifier_of_parse_render hroot h).2
  · intro h
    have := @parse_block_render p none hlocal hclass rfl h
    rwa [htext, hself] at this

/-! ## The name of the block -/

/-- **The block is named by the first token**, if that is an identifier. -/
theorem block_of_parse_cons {reference : String} {c : Component} {cs : List Component}
    (hcs : componentsOf reference.toList = c :: cs) (hfiller : c.isFiller = false)
    (hcomma : c.token ≠ .comma) (h : ObjectPath.parse reference = .ok path) :
    path.block = some name ↔ c.token = .ident name := by
  have hgrouped := isGrouped_componentsOf reference.toList
  obtain ⟨key, hparse, hkey⟩ := parse_ok h
  have hitems := (mapM_readListItem_eq_ok_iff hgrouped).1 (Selector.parseList_eq_ok_iff.1 hparse)
  obtain ⟨part, location, parts, hsplit⟩ := exists_splitCommas_cons hcomma cs
  rw [hcs, hsplit] at hitems
  obtain ⟨q, x, xs, hx, hxs⟩ := (forall₂_cons.1 hitems).1.exists_first hfiller
  obtain rfl : key = x :: xs := by simpa [Selector.compounds] using hxs
  rw [block_of_ofCompound hkey]
  exact hx.tag?_eq_some_iff (hgrouped c (by simp [hcs]))

theorem block_of_parse {tail : String} (hname : isIdentifier name = true)
    (htail : Follows tail.toList) (h : ObjectPath.parse (name ++ tail) = .ok path) :
    path.block = some name := by
  obtain ⟨c, s, hcs, hread⟩ := (writes_identifier hname).read _ htail
  obtain ⟨d, ds, hds, hd⟩ := exists_componentsOf_cons c (s ++ tail.toList)
  rw [hread] at hd
  rw [← cons_append, ← hcs, ← String.toList_append] at hds
  exact (block_of_parse_cons hds (by rw [Component.isFiller, hd]; rfl) (by simp [hd]) h).2 hd

theorem head?_render (hlocal : p.block = none) : ∃ c s, p.render.toList = c :: s ∧
    c ∈ ['.', '[', ':'] := by
  obtain ⟨own, className, state⟩ := p
  obtain rfl : own = none := hlocal
  rcases className with _ | className <;> rcases state with _ | ⟨_ | group, state⟩ <;>
    simp [render, StateName.render]

/-- **A text without the name of a block names no other block**, whatever its names are. -/
theorem block_of_parse_render (hlocal : p.block = none) (h : ObjectPath.parse p.render = .ok path) :
    path.block = none := by
  obtain ⟨c, s, htext, hc⟩ := head?_render hlocal
  obtain ⟨hfiller, hcomma, hident⟩ := Token.read_of_mark hc s
  obtain ⟨d, ds, hds, hd⟩ := exists_componentsOf_cons c s
  rw [← htext] at hds
  rw [← hd] at hfiller hcomma hident
  exact Option.eq_none_iff_forall_ne_some.2 fun name hname =>
    hident name ((block_of_parse_cons hds hfiller hcomma h).1 hname)

end ObjectPath

end StyleBlocks
