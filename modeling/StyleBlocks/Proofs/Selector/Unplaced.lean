import StyleBlocks.Proofs.Selector.Acceptance
import StyleBlocks.Proofs.Stylesheet.Bare

/-!
# Selectors do not depend on locations

What is written with some components is written with components that differ in their locations
alone.  So a text's selectors are those of its components without locations.
-/

namespace StyleBlocks

open Component List

variable {c d : Component} {cs ds : List Component} {ss : List Selector} {text : String}

/-! ## The grammar -/

theorem token_eq_of_unplaced (h : c.unplaced = d.unplaced) : c.token = d.token := by
  rw [← c.token_unplaced, h, d.token_unplaced]

theorem argumentOf_unplaced (c : Component) : argumentOf c.unplaced = argumentOf c := by
  cases c with
  | leaf l => rw [unplaced_leaf, argumentOf, argumentOf]
  | block l b body stop close =>
    rw [unplaced_block, argumentOf, argumentOf, textOf_map_unplaced]

section

variable (h : ds.map Component.unplaced = cs.map Component.unplaced)

include h

theorem Spaces.of_unplaced (hcs : Spaces cs) : Spaces ds := by
  intro d hd
  obtain ⟨c, hc, heq⟩ := mem_map.1 (h ▸ mem_map_of_mem hd)
  rw [isFiller, ← token_eq_of_unplaced heq]
  exact hcs c hc

theorem map_unplaced_uncommented : (uncommented ds).map unplaced
    = (uncommented cs).map unplaced := by
  have hfilter (l : List Component) : (uncommented l).map unplaced
      = uncommented (l.map unplaced) := by
    rw [uncommented, uncommented, filter_map]
    refine congrArg _ (filter_congr fun c _ => ?_)
    simp [isComment, c.token_unplaced]
  rw [hfilter, hfilter, h]

theorem Attribute.NameIsWritten.of_unplaced {space : Option String} {name : String}
    (hcs : Attribute.NameIsWritten cs space name) : Attribute.NameIsWritten ds space name := by
  cases hcs <;> simp only [map_cons, map_append, map_nil, map_eq_cons_iff,
    map_eq_append_iff, map_eq_nil_iff] at h <;>
  grind [Attribute.NameIsWritten, token_eq_of_unplaced, Spaces.of_unplaced]

theorem Attribute.FlagIsWritten.of_unplaced {ignoreCase : Bool}
    (hcs : Attribute.FlagIsWritten cs ignoreCase) : Attribute.FlagIsWritten ds ignoreCase := by
  cases hcs <;> simp only [map_cons, map_append, map_nil, map_eq_cons_iff,
    map_eq_append_iff, map_eq_nil_iff] at h <;>
  grind [Attribute.FlagIsWritten, token_eq_of_unplaced, Spaces.of_unplaced]

theorem Attribute.IsWritten.of_unplaced {a : Attribute} (hcs : Attribute.IsWritten cs a) :
    Attribute.IsWritten ds a := by
  cases hcs <;> simp only [map_cons, map_append, map_eq_cons_iff, map_eq_append_iff] at h
  case bare hlead hname htrail =>
    obtain ⟨lead', _, rfl, hlead', part', trail', rfl, hpart', htrail'⟩ := h
    exact .bare (.of_unplaced hlead' hlead) (.of_unplaced hpart' hname) (.of_unplaced htrail' htrail)
  case test hlead hname hbefore hc hbetween hv hflag htrail =>
    obtain ⟨lead', _, rfl, hlead', part', _, rfl, hpart', before', _, rfl, hbefore', c', _, rfl, hc',
      between', _, rfl, hbetween', v', _, rfl, hv', flag', trail', rfl, hflag', htrail'⟩ := h
    exact .test (.of_unplaced hlead' hlead) (.of_unplaced hpart' hname)
      (.of_unplaced hbefore' hbefore) (token_eq_of_unplaced hc' ▸ hc)
      (.of_unplaced hbetween' hbetween) (token_eq_of_unplaced hv' ▸ hv)
      (.of_unplaced hflag' hflag) (.of_unplaced htrail' htrail)

end

theorem Component.Names.of_unplaced {name : String} {argument : Option String}
    (h : d.unplaced = c.unplaced) (hc : c.Names name argument) : d.Names name argument := by
  cases hc with
  | plain hc => exact .plain ((token_eq_of_unplaced h).trans hc)
  | function hc =>
    rw [← argumentOf_unplaced c, ← h, argumentOf_unplaced]
    exact .function ((token_eq_of_unplaced h).trans hc)

section

variable (h : ds.map Component.unplaced = cs.map Component.unplaced)

include h

theorem Simple.IsWritten.of_unplaced {x : Simple} (hcs : Simple.IsWritten cs x) :
    Simple.IsWritten ds x := by
  cases hcs <;> simp only [map_cons, map_nil, map_eq_cons_iff, map_eq_nil_iff] at h
  case hasAttribute ha =>
    obtain ⟨c', _, rfl, hc', rfl⟩ := h
    cases c' with
    | leaf l => simp [unplaced_leaf, unplaced_block] at hc'
    | block l b body stop close =>
      simp only [unplaced_block, Component.block.injEq] at hc'
      obtain ⟨-, rfl, hbody, -⟩ := hc'
      exact .hasAttribute (.of_unplaced (map_unplaced_uncommented hbody) ha)
  all_goals grind [Simple.IsWritten, token_eq_of_unplaced, Names.of_unplaced]

theorem Compound.AreWritten.of_unplaced {xs : List Simple} (hcs : Compound.AreWritten cs xs) :
    Compound.AreWritten ds xs := by
  induction hcs generalizing ds with
  | nil => exact map_eq_nil_iff.1 h ▸ .nil
  | cons hx _ ih =>
    rw [map_append] at h
    obtain ⟨part', rest', rfl, hpart', hrest'⟩ := map_eq_append_iff.1 h
    exact .cons (hx.of_unplaced hpart') (ih hrest')

theorem Combinator.IsWritten.of_unplaced {k : Combinator} (hcs : Combinator.IsWritten cs k) :
    Combinator.IsWritten ds k := by
  cases hcs with
  | descendant hpad hne =>
    exact .descendant (.of_unplaced h hpad) fun hnil => hne (by simpa [hnil] using h.symm)
  | written hbefore hc hbehind =>
    simp only [map_append, map_cons, map_eq_append_iff, map_eq_cons_iff] at h
    obtain ⟨before', _, rfl, hbefore', c', behind', rfl, hc', hbehind'⟩ := h
    exact .written (.of_unplaced hbefore' hbefore) (token_eq_of_unplaced hc' ▸ hc)
      (.of_unplaced hbehind' hbehind)

theorem Selector.IsWritten.of_unplaced {s : Selector} (hcs : Selector.IsWritten cs s) :
    Selector.IsWritten ds s := by
  induction hcs generalizing ds with
  | key hkey => exact .key ⟨hkey.ne_nil, .of_unplaced h hkey.conditions, hkey.elements⟩
  | cons hc hk _ ih =>
    rw [map_append, map_append] at h
    obtain ⟨part', _, rfl, hpart', hrest'⟩ := map_eq_append_iff.1 h
    obtain ⟨joint', rest', rfl, hjoint', hrest'⟩ := map_eq_append_iff.1 hrest'
    exact .cons ⟨hc.ne_nil, .of_unplaced hpart' hc.conditions, hc.elements⟩
      (.of_unplaced hjoint' hk) (ih hrest')

theorem Selector.Fills.of_unplaced {s : Selector} (hcs : Selector.Fills cs s) :
    Selector.Fills ds s := by
  obtain ⟨lead, body, trail, hbody, hlead, htrail, hs⟩ := hcs
  have h := map_unplaced_uncommented h
  rw [hbody, map_append, map_append] at h
  obtain ⟨lead', _, hds, hlead', hrest'⟩ := map_eq_append_iff.1 h
  obtain ⟨body', trail', rfl, hbody', htrail'⟩ := map_eq_append_iff.1 hrest'
  exact ⟨lead', body', trail', hds, .of_unplaced hlead' hlead, .of_unplaced htrail' htrail,
    .of_unplaced hbody' hs⟩

end

/-! ## Lists of selectors -/

theorem splitCommas_unplaced (stop : Location) (cs : List Component) :
    splitCommas .nowhere (cs.map unplaced)
    = (splitCommas stop cs).map fun item => (item.1.map unplaced, .nowhere) := by
  induction cs with
  | nil => rfl
  | cons c cs ih =>
    rw [map_cons, splitCommas, splitCommas, c.token_unplaced, ih, c.location_unplaced]
    split
    · rfl
    · cases splitCommas stop cs <;> rfl

theorem forall₂_fills_of_unplaced (stop stop' : Location) (h : ds.map unplaced = cs.map unplaced)
    (hcs : Forall₂ (fun item s => Selector.Fills item.1 s) (splitCommas stop cs) ss) :
    Forall₂ (fun item s => Selector.Fills item.1 s) (splitCommas stop' ds) ss := by
  have hall : Forall₂ (fun item s => ∀ part : List Component, part.map unplaced = item.1 →
      Selector.Fills part s) (splitCommas .nowhere (cs.map unplaced)) ss := by
    rw [splitCommas_unplaced stop]
    exact forall₂_map_left_iff.2 (hcs.imp fun _ _ hs _ hpart => hs.of_unplaced hpart)
  rw [← h, splitCommas_unplaced stop'] at hall
  exact (forall₂_map_left_iff.1 hall).imp fun item _ hs => hs item.1 rfl

def readItems (cs : List Component) : Except LocatedFault (List Selector) :=
  (splitCommas .nowhere cs).mapM readListItem

/-- The components of a text, without locations. -/
def componentsOf (w : List Char) : List Component :=
  Component.group .nowhere (Lexeme.cut w)

theorem isGrouped_componentsOf (w : List Char) : ∀ c ∈ componentsOf w, c.IsGrouped :=
  isGrouped_group _ _

theorem map_unplaced_componentsOf (w : List Char) :
    (componentsOf w).map unplaced = (parse w).1.map unplaced := by
  rw [componentsOf, parse, map_unplaced_group, map_unplaced_group, Lexeme.cut, map_map]
  rfl

/-- **The selectors of a text are read from its components without locations.** -/
theorem Selector.parseList_eq_ok_iff {selectors : List Selector} :
    Selector.parseList text = .ok selectors ↔ readItems (componentsOf text.toList) = .ok selectors := by
  have h := map_unplaced_componentsOf text.toList
  rw [Selector.parseList, Component.parse, readItems]
  rw [except_mapError_ok_iff, mapM_readListItem_eq_ok_iff (isGrouped_group _ _),
    mapM_readListItem_eq_ok_iff (isGrouped_componentsOf _)]
  exact ⟨forall₂_fills_of_unplaced _ _ h, forall₂_fills_of_unplaced _ _ h.symm⟩

theorem Selector.fills_of_parseList {s : Selector} (h : Selector.parseList text = .ok ss)
    (hs : s ∈ ss) : ∃ part, part <:+: componentsOf text.toList ∧ Selector.Fills part s := by
  have hitems := (mapM_readListItem_eq_ok_iff (isGrouped_componentsOf _)).1
    (Selector.parseList_eq_ok_iff.1 h)
  obtain ⟨item, hitem, hfills⟩ := exists_left_of_forall₂ hitems hs
  exact ⟨item.1, infix_of_mem_splitCommas hitem, hfills⟩

/-- **Every compound of a text is written with components that stand together.** -/
theorem Selector.exists_isWritten_of_parseList {s : Selector} (h : Selector.parseList text = .ok ss)
    (hs : s ∈ ss) {c : Compound} (hc : c ∈ s.compounds) :
    ∃ part, part <:+: uncommented (componentsOf text.toList) ∧ Compound.IsWritten part c := by
  obtain ⟨cs, hcs, hfills⟩ := Selector.fills_of_parseList h hs
  obtain ⟨part, hpart, hcompound⟩ := hfills.exists_of_mem hc
  exact ⟨part, hpart.trans (hcs.filter _), hcompound⟩

end StyleBlocks
