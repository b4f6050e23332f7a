import Mathlib.Data.List.Flatten
import StyleBlocks.Proofs.Selector.Acceptance
import StyleBlocks.Proofs.Selector.Naming
import StyleBlocks.Proofs.Token.Spelling

/-!
# The tokens that selectors are read from

The names and marks that a selector is made of can be found in the tokens that it is written with, in
the order of the text: this is `Shown`, and it composes.

Main result: `Selector.shown_of_parseList`.
-/

namespace StyleBlocks

open List Component

variable {c : Component} {compound : Compound} {name reference : String} {path : ObjectPath}
  {piece : Piece} {s : Simple}

/-! ## Pieces -/

def AttributeTest.pieces (t : AttributeTest) : List Piece :=
  (if t.operator = .equals then [.mark '='] else []) ++ [.value t.value]

/-- An attribute; of the namespaces, that of the states. -/
def Attribute.pieces (a : Attribute) : List Piece :=
  .mark '[' :: (if a.space = some stateSpace then [.name stateSpace, .mark '|'] else [])
    ++ .name a.name :: (a.test.map AttributeTest.pieces).getD []

def Simple.pieces : Simple → List Piece
  | .tag name => [.name name]
  | .className name => [.mark '.', .name name]
  | .hasAttribute a => a.pieces
  | _ => []

def Selector.pieces (s : Selector) : List Piece :=
  s.compounds.flatten.flatMap Simple.pieces

def StateName.pieces (s : StateName) : List Piece :=
  [.mark '[', .name stateSpace, .mark '|'] ++ match s.group with
    | none => [.name s.name]
    | some group => [.name group, .mark '=', .value s.name]

def ObjectPath.pieces (p : ObjectPath) : List Piece :=
  (p.block.map .name).toList ++ (p.className.map fun name => [.mark '.', .name name]).getD []
    ++ (p.state.map StateName.pieces).getD []

/-! ## Components that show pieces -/

/-- The pieces are shown by tokens of the components, in their order. -/
def Shown (cs : List Component) (pieces : List Piece) : Prop :=
  ∃ ls, List.Forall₂ Lexeme.Shows ls pieces ∧ ls.Sublist (Component.lexemesOf cs)

namespace Shown

variable {cs ds : List Component} {p q : List Piece}

theorem nil : Shown cs [] :=
  ⟨[], .nil, nil_sublist _⟩

theorem append (h : Shown cs p) (h' : Shown ds q) : Shown (cs ++ ds) (p ++ q) := by
  obtain ⟨ls, hls, hsub⟩ := h
  obtain ⟨ls', hls', hsub'⟩ := h'
  refine ⟨ls ++ ls', rel_append hls hls', ?_⟩
  rw [lexemesOf_append]
  exact hsub.append hsub'

theorem behind (cs : List Component) (h : Shown ds q) : Shown (cs ++ ds) q :=
  nil.append h

theorem cons (hc : c.lexeme.Shows piece) (h : Shown cs p) : Shown (c :: cs) (piece :: p) := by
  have hfirst : Shown [c] [piece] := by
    refine ⟨[c.lexeme], .cons hc .nil, ?_⟩
    cases c with
    | leaf l => exact Sublist.refl _
    | block l b body stop close => exact (nil_sublist _).cons_cons l
  exact hfirst.append h

theorem mono (h : Shown cs p) (hq : q.Sublist p) : Shown cs q := by
  obtain ⟨ls, hls, hsub⟩ := h
  obtain ⟨ls', hls', hq⟩ := exists_sublist_of_forall₂ hls hq
  exact ⟨ls', hq, hls'.trans hsub⟩

end Shown

section

variable {part : List Component} {a : Attribute}

theorem Attribute.NameIsWritten.shown {space : Option String}
    (h : Attribute.NameIsWritten part space name) :
    Shown part ((if space = some stateSpace then [.name stateSpace, .mark '|'] else [])
      ++ [.name name]) := by
  have hname {d : Component} (hd : d.token = .ident name) : Shown [d] [.name name] :=
    .cons (show d.lexeme.Shows (.name name) from hd) .nil
  cases h with
  | plain hc => exact hname hc
  | @inSpace c bar d space _ hc hbar hd =>
    have hall : Shown [c, bar, d] [.name space, .mark '|', .name name] :=
      .cons (show c.lexeme.Shows (.name space) from hc) (.cons (.inl hbar) (hname hd))
    split
    · rename_i hspace
      cases hspace
      exact hall
    · exact hall.mono (sublist_append_right [_, _] _)
  | @inAnySpace c bar d pad _ hc hpad hbar hd =>
    have hlast := (hname hd).behind (c :: (pad ++ [bar]))
    simpa [stateSpace] using hlast
  | @inNoSpace bar d _ hbar hd => exact (hname hd).behind [bar]

theorem Attribute.IsWritten.shown (h : Attribute.IsWritten part a) :
    ∃ inner, a.pieces = .mark '[' :: inner ∧ Shown part inner := by
  cases h with
  | @bare _ _ trail _ _ _ hname =>
    have hshown := hname.shown.append (.nil : Shown trail [])
    rw [append_nil] at hshown
    exact ⟨_, rfl, .behind _ hshown⟩
  | @test _ _ before between flag trail c v _ _ value operator _ _ hname _ hc _ hv =>
    have hvalue : v.lexeme.Shows (.value value) := by
      unfold attributeValue? at hv
      split at hv <;> cases hv
      · exact .inl ‹_›
      · exact .inr ‹_›
    have hoperator : Shown [c] (if operator = .equals then [.mark '='] else []) := by
      split
      · rename_i heq
        subst heq
        unfold attributeMatcher? at hc
        split at hc
        · exact .cons (.inl ‹_›) .nil
        all_goals cases hc
      · exact .nil
    have hrest : Shown (v :: (flag ++ trail)) [.value value] := .cons hvalue .nil
    have htest := hoperator.append (hrest.behind between)
    refine ⟨_, rfl, .behind _ ?_⟩
    simpa [Attribute.test, AttributeTest.pieces] using hname.shown.append (htest.behind before)

/-- **The pieces of a condition are shown by its components.** -/
theorem Simple.IsWritten.shown (h : Simple.IsWritten part s) (hgrouped : ∀ c ∈ part, c.IsGrouped) :
    Shown part s.pieces := by
  cases h with
  | @tag c name hc => exact .cons (show c.lexeme.Shows (.name name) from hc) .nil
  | @className c d name hc hd =>
    exact .cons (.inl hc) (.cons (show d.lexeme.Shows (.name name) from hd) .nil)
  | @hasAttribute l body stop close a ha =>
    obtain ⟨inner, hpieces, ls, hls, hsub⟩ := ha.shown
    have hopener : l.Shows (.mark '[') :=
      .inr ⟨.square, Token.eq_opener_square (hgrouped _ mem_cons_self).1, rfl⟩
    rw [Simple.pieces, hpieces]
    refine ⟨l :: ls, .cons hopener hls, ?_⟩
    exact ((hsub.trans (sublist_lexemesOf filter_sublist)).cons_cons l).trans
      (sublist_append_left ..)
  | universal | id | pseudoClass | oneColon | pseudoElement => exact .nil

theorem Compound.AreWritten.shown {xs : List Simple} (h : Compound.AreWritten part xs)
    (hgrouped : ∀ c ∈ part, c.IsGrouped) : Shown part (xs.flatMap Simple.pieces) := by
  induction h with
  | nil => exact .nil
  | cons hx _ ih =>
    obtain ⟨hpart, hrest⟩ := forall_mem_append.1 hgrouped
    exact (hx.shown hpart).append (ih hrest)

theorem Selector.IsWritten.shown {s : Selector} (h : Selector.IsWritten part s)
    (hgrouped : ∀ c ∈ part, c.IsGrouped) : Shown part s.pieces := by
  induction h with
  | key hkey => simpa [Selector.pieces, Selector.compounds] using hkey.conditions.shown hgrouped
  | @cons part joint rest c key k context hc _ _ ih =>
    obtain ⟨hpart, hrest⟩ := forall_mem_append.1 hgrouped
    have htail := ih (forall_mem_append.1 hrest).2
    simpa [Selector.pieces, Selector.compounds] using
      (hc.conditions.shown hpart).append (Shown.behind joint htail)

end

/-- **The pieces of a selector are found among the tokens of its text**, in their order. -/
theorem Selector.shown_of_parseList {text : String} {selectors : List Selector}
    (h : Selector.parseList text = .ok selectors) : ∀ s ∈ selectors, ∃ ls,
      Forall₂ Lexeme.Shows ls s.pieces ∧ ls.Sublist (Lexeme.list .start text.toList) := by
  intro s hs
  have hgrouped := isGrouped_group (Location.start.advance text.toList)
    (Lexeme.list .start text.toList)
  obtain ⟨item, hitem, lead, body, trail, hbody, -, -, hwritten⟩ := exists_left_of_forall₂
    ((mapM_readListItem_eq_ok_iff hgrouped).1 (except_mapError_ok_iff.1 h)) hs
  have hsub : body.Sublist (group _ _) :=
    calc body.Sublist _ := (infix_append' lead body trail).sublist
      Sublist _ item.1 := hbody ▸ filter_sublist
      Sublist _ _ := (infix_of_mem_splitCommas hitem).sublist
  obtain ⟨ls, hls, hls'⟩ := hwritten.shown fun c hc => hgrouped c (hsub.subset hc)
  exact ⟨ls, hls, (hls'.trans (sublist_lexemesOf hsub)).trans (sublist_lexemesOf_group _ _)⟩

/-! ## Paths -/

theorem exists_subperm_of_forall₂ {α β : Type} {R : α → β → Prop} {l : List α} {m m' : List β}
    (h : Forall₂ R l m) (hm : m'.Subperm m) :
    ∃ l', l'.Subperm l ∧ Forall₂ R l' m' := by
  obtain ⟨m'', hperm, hsub⟩ := hm
  obtain ⟨l'', hl'', hr⟩ := exists_sublist_of_forall₂ h hsub
  obtain ⟨l', hr', hperm'⟩ := perm_comp_forall₂ hperm.symm hr.flip
  exact ⟨l', ⟨l'', hperm'.symm, hl''⟩, hr'.flip⟩

namespace ObjectPath

theorem pieces_stateName {a : Attribute} (h : (Simple.hasAttribute a).IsPermitted) :
    a.stateName.pieces = a.pieces := by
  obtain ⟨hspace, hequals⟩ := h
  cases hvalue : a.value <;> rw [hvalue] at hequals <;>
    simp [Attribute.stateName, StateName.pieces, Attribute.pieces, Attribute.test,
      AttributeTest.pieces, hspace, hvalue, hequals]

theorem subperm_pieces_ofCompound {rest : List Simple}
    (h : ofCompound compound = .ok (path, rest)) :
    path.pieces.Subperm (compound.flatMap Simple.pieces) := by
  obtain ⟨hnames, rfl, -⟩ := ofCompound_ok_iff.1 h
  have hmem {α : Type} {f : Simple → Option α} {a : α} (ha : (compound.filterMap f).head? = some a) :
      ∃ x ∈ compound, f x = some a :=
    mem_filterMap.1 (mem_of_head? ha)
  have htag {name : String} (hname : compound.tags.head? = some name) : .tag name ∈ compound := by
    obtain ⟨x, hx, hname⟩ := hmem hname
    cases x <;> cases hname
    exact hx
  have hclass {name : String} (hname : compound.objectClasses.head? = some name) :
      .className name ∈ compound := by
    obtain ⟨x, hx, hname⟩ := hmem hname
    cases x <;> simp [Simple.objectClass?] at hname
    exact hname.2 ▸ hx
  have hattribute {a : Attribute} (ha : compound.attributes.head? = some a) :
      .hasAttribute a ∈ compound := by
    obtain ⟨x, hx, ha⟩ := hmem ha
    cases x <;> cases ha
    exact hx
  have hparts : ∃ parts : List Simple, parts.Nodup ∧ parts ⊆ compound ∧
      compound.objectPath.pieces = parts.flatMap Simple.pieces := by
    refine ⟨(compound.tags.head?.map Simple.tag).toList ++
      ((compound.objectClasses.head?.map Simple.className).toList ++
        (compound.attributes.head?.map Simple.hasAttribute).toList), ?_, ?_, ?_⟩
    · cases compound.tags.head? <;> cases compound.objectClasses.head? <;>
        cases compound.attributes.head? <;> simp
    · intro x hx
      simp only [mem_append, Option.mem_toList, Option.map_eq_some_iff] at hx
      rcases hx with ⟨_, hname, rfl⟩ | ⟨_, hname, rfl⟩ | ⟨_, ha, rfl⟩
      · exact htag hname
      · exact hclass hname
      · exact hattribute ha
    · have hstate : (compound.attributes.head?.map fun a => a.stateName.pieces)
          = compound.attributes.head?.map Attribute.pieces :=
        Option.map_congr fun a ha => pieces_stateName (hnames.permitted _ (hattribute ha))
      rw [pieces, Compound.objectPath, Option.map_map]
      change _ ++ Option.getD (compound.attributes.head?.map fun a => a.stateName.pieces) [] = _
      rw [hstate]
      cases compound.tags.head? <;> cases compound.objectClasses.head? <;>
        cases compound.attributes.head? <;> simp [Simple.pieces]
  obtain ⟨parts, hnodup, hsubset, hpieces⟩ := hparts
  obtain ⟨l, hperm, hsub⟩ := subperm_of_subset hnodup hsubset
  exact hpieces ▸ ⟨_, hperm.flatMap_right _, hsub.flatMap _⟩

theorem parse_ok (h : ObjectPath.parse reference = .ok path) : ∃ key,
      Selector.parseList reference = .ok [⟨[], key⟩] ∧ ofCompound key = .ok (path, []) := by
  obtain ⟨⟨context, key⟩, hselector, h⟩ := except_bind_ok h
  have hparse := except_mapError_ok_iff.1 hselector
  have hselectors : Selector.parseList reference = .ok [⟨context, key⟩] := by
    obtain ⟨selectors, hlist, hparse⟩ := except_bind_ok hparse
    split at hparse <;> cases hparse
    exact hlist
  split at h
  · cases h
  rename_i hcontext
  obtain rfl : context = [] := by simpa using hcontext
  obtain ⟨⟨path', rest⟩, hpath, h⟩ := except_bind_ok h
  dsimp only at h
  split at h <;> cases h
  exact ⟨key, hselectors, hpath⟩

theorem shown_of_parse (h : ObjectPath.parse reference = .ok path) : ∃ ls,
      Forall₂ Lexeme.Shows ls path.pieces ∧ ls.Subperm (Lexeme.list .start reference.toList) := by
  obtain ⟨key, hselectors, hpath⟩ := parse_ok h
  obtain ⟨ls, hls, hsub⟩ := Selector.shown_of_parseList hselectors _ mem_cons_self
  have hpieces : (⟨[], key⟩ : Selector).pieces = key.flatMap Simple.pieces := by
    simp [Selector.pieces, Selector.compounds]
  rw [hpieces] at hls
  obtain ⟨ls', hls', hshown⟩ := exists_subperm_of_forall₂ hls (subperm_pieces_ofCompound hpath)
  exact ⟨ls', hshown, hls'.trans hsub.subperm⟩

end ObjectPath

end StyleBlocks
