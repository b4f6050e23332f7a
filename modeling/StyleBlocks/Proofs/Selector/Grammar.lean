import Mathlib.Data.List.DropRight
import StyleBlocks.Proofs.Component
import StyleBlocks.Proofs.Steps
import StyleBlocks.Selector.Parser

/-!
# The grammar of selectors

What a selector is written with, as relations between components and what they stand for.  Comments
are left out; spaces are components like all others, and what a bracket holds belongs to its
component.

* `isWritten_of_readSimple`, `readSimple_of_isWritten`: **a condition is read exactly where it is
  written.**
-/

namespace StyleBlocks

open Component List

def uncommented (cs : List Component) : List Component :=
  cs.filter fun c => !c.isComment

def Spaces (cs : List Component) : Prop :=
  ∀ c ∈ cs, c.isFiller = true

/-! ## Conditions -/

/-- The name of an attribute, with its namespace. -/
inductive Attribute.NameIsWritten : List Component → Option String → String → Prop
  | plain {c : Component} {name : String} (hc : c.token = .ident name) : NameIsWritten [c] none name
  | inSpace {c bar d : Component} {space name : String} (hc : c.token = .ident space)
      (hbar : bar.token = .delim '|') (hd : d.token = .ident name) :
      NameIsWritten [c, bar, d] (some space) name
  | inAnySpace {c bar d : Component} {pad : List Component} {name : String}
      (hc : c.token = .delim '*') (hpad : Spaces pad) (hbar : bar.token = .delim '|')
      (hd : d.token = .ident name) : NameIsWritten (c :: (pad ++ [bar, d])) (some "*") name
  | inNoSpace {bar d : Component} {name : String} (hbar : bar.token = .delim '|')
      (hd : d.token = .ident name) : NameIsWritten [bar, d] (some "") name

/-- The letter behind a value, which says whether case matters. -/
inductive Attribute.FlagIsWritten : List Component → Bool → Prop
  | absent : FlagIsWritten [] false
  | ignoreCase {pad : List Component} {c : Component} {name : String} (hpad : Spaces pad)
      (hc : c.token = .ident name) (h : sameIgnoringCase name "i" = true) :
      FlagIsWritten (pad ++ [c]) true
  | keepCase {pad : List Component} {c : Component} {name : String} (hpad : Spaces pad)
      (hc : c.token = .ident name) (h : sameIgnoringCase name "s" = true) :
      FlagIsWritten (pad ++ [c]) false

/-- What stands between the brackets of an attribute. -/
inductive Attribute.IsWritten : List Component → Attribute → Prop
  | bare {lead part trail : List Component} {space : Option String} {name : String}
      (hlead : Spaces lead) (hname : NameIsWritten part space name) (htrail : Spaces trail) :
      IsWritten (lead ++ (part ++ trail)) ⟨space, name, none, none, false⟩
  | test {lead part before between flag trail : List Component} {c v : Component}
      {space : Option String} {name value : String} {operator : AttributeMatcher}
      {ignoreCase : Bool} (hlead : Spaces lead) (hname : NameIsWritten part space name)
      (hbefore : Spaces before) (hc : attributeMatcher? c.token = some operator)
      (hbetween : Spaces between) (hv : attributeValue? v.token = some value)
      (hflag : FlagIsWritten flag ignoreCase) (htrail : Spaces trail) :
      IsWritten (lead ++ (part ++ (before ++ c :: (between ++ v :: (flag ++ trail)))))
        ⟨space, name, some operator, some value, ignoreCase⟩

/-- The component is a name, or a name with an argument in brackets. -/
inductive Component.Names (c : Component) (name : String) : Option String → Prop
  | plain (h : c.token = .ident name) : c.Names name none
  | function (h : c.token = .function name) : c.Names name (some (argumentOf c))

/-- The components of one condition. -/
inductive Simple.IsWritten : List Component → Simple → Prop
  | tag {c : Component} {name : String} (hc : c.token = .ident name) : IsWritten [c] (.tag name)
  | universal {c : Component} (hc : c.token = .delim '*') : IsWritten [c] .universal
  | id {c : Component} {name : String} (hc : c.token = .idHash name) : IsWritten [c] (.id name)
  | className {c d : Component} {name : String} (hc : c.token = .delim '.')
      (hd : d.token = .ident name) : IsWritten [c, d] (.className name)
  | hasAttribute {l : Lexeme} {body : List Component} {stop : Location} {close : List Char}
      {a : Attribute} (ha : Attribute.IsWritten (uncommented body) a) :
      IsWritten [.block l .square body stop close] (.hasAttribute a)
  | pseudoClass {c d : Component} {name : String} {argument : Option String}
      (hc : c.token = .colon) (hd : d.Names name argument)
      (hone : argument = none → isOneColonElement name = false) :
      IsWritten [c, d] (.pseudoClass (lowercase name) argument)
  | oneColon {c d : Component} {name : String} (hc : c.token = .colon) (hd : d.token = .ident name)
      (hone : isOneColonElement name = true) :
      IsWritten [c, d] (.pseudoElement (lowercase name) none)
  | pseudoElement {c d e : Component} {name : String} {argument : Option String}
      (hc : c.token = .colon) (hd : d.token = .colon) (he : e.Names name argument) :
      IsWritten [c, d, e] (.pseudoElement (lowercase name) argument)

/-! ## Selectors -/

inductive Compound.AreWritten : List Component → List Simple → Prop
  | nil : AreWritten [] []
  | cons {part rest : List Component} {x : Simple} {xs : List Simple} (hx : Simple.IsWritten part x)
      (hxs : AreWritten rest xs) : AreWritten (part ++ rest) (x :: xs)

def Compound.ElementsLast (c : Compound) : Prop :=
  c.Pairwise fun x y => x.isPseudoElement = true → y.isPseudoElement = true

structure Compound.IsWritten (part : List Component) (c : Compound) : Prop where
  ne_nil : c ≠ []
  conditions : AreWritten part c
  elements : c.ElementsLast

inductive Combinator.IsWritten : List Component → Combinator → Prop
  | descendant {pad : List Component} (hpad : Spaces pad) (hne : pad ≠ []) :
      IsWritten pad .descendant
  | written {before behind : List Component} {c : Component} {k : Combinator}
      (hbefore : Spaces before) (hc : combinator? c.token = some k) (hbehind : Spaces behind) :
      IsWritten (before ++ c :: behind) k

inductive Selector.IsWritten : List Component → Selector → Prop
  | key {part : List Component} {key : Compound} (hkey : Compound.IsWritten part key) :
      IsWritten part ⟨[], key⟩
  | cons {part joint rest : List Component} {c key : Compound} {k : Combinator}
      {context : List (Compound × Combinator)} (hc : Compound.IsWritten part c)
      (hk : Combinator.IsWritten joint k) (hrest : IsWritten rest ⟨context, key⟩) :
      IsWritten (part ++ (joint ++ rest)) ⟨(c, k) :: context, key⟩

variable {a : Attribute} {body cs lead more pad part rest trail : List Component}
  {bar c d e : Component} {ignoreCase : Bool} {location stop : Location} {name : String}
  {space : Option String} {t : Token} {x : Simple}

/-! ## Comments -/

theorem Token.isComment_of_isFiller (h : t.isFiller = false) : t.isComment = false := by
  cases t with
  | comment => cases h
  | _ => rfl

theorem isComment_of_isFiller (h : c.isFiller = false) : c.isComment = false :=
  Token.isComment_of_isFiller h

theorem uncommented_eq_cons_iff : uncommented cs = c :: more
    ↔ ∃ rest, cs.dropWhile isComment = c :: rest ∧ uncommented rest = more := by
  induction cs with
  | nil => simp [uncommented]
  | cons d cs ih =>
    rw [uncommented] at ih ⊢
    cases h : d.isComment with
    | true => simpa [h] using ih
    | false => simp [h, uncommented, eq_comm, and_comm]

theorem uncommented_eq_cons (h : cs.dropWhile isComment = c :: rest) :
    uncommented cs = c :: uncommented rest :=
  uncommented_eq_cons_iff.2 ⟨rest, h, rfl⟩

theorem uncommented_eq_nil_iff : uncommented cs = [] ↔ cs.dropWhile isComment = [] := by
  simp [uncommented, filter_eq_nil_iff, dropWhile_eq_nil_iff]

theorem isFiller_of_dropWhile (h : cs.dropWhile isFiller = c :: rest) : c.isFiller = false := by
  simpa [h] using head?_dropWhile_not isFiller cs

theorem dropWhile_uncommented (cs : List Component) :
    (uncommented cs).dropWhile isFiller = uncommented (cs.dropWhile isFiller) := by
  induction cs with
  | nil => rfl
  | cons c cs ih =>
    rw [uncommented] at ih ⊢
    cases h : c.isFiller with
    | true => cases hc : c.isComment <;> simp [h, hc, ih]
    | false => simp [h, isComment_of_isFiller h, uncommented]

theorem uncommented_dropWhile (h : cs.dropWhile isFiller = c :: rest) :
    uncommented (cs.dropWhile isFiller) = c :: uncommented rest := by
  simp [h, uncommented, isComment_of_isFiller (isFiller_of_dropWhile h)]

theorem spaces_uncommented_iff : Spaces (uncommented cs) ↔ cs.dropWhile isFiller = [] := by
  rw [Spaces, ← dropWhile_eq_nil_iff, dropWhile_uncommented]
  cases h : cs.dropWhile isFiller with
  | nil => simp [uncommented]
  | cons c rest =>
    rw [← h, uncommented_dropWhile h]
    simp [h]

theorem exists_spaces_of_dropWhile (h : cs.dropWhile isFiller = c :: rest) :
    ∃ pad, Spaces pad ∧ uncommented cs = pad ++ c :: uncommented rest :=
  ⟨(uncommented cs).takeWhile isFiller, fun _ hd => mem_takeWhile_imp hd,
    by rw [← uncommented_dropWhile h, ← dropWhile_uncommented, takeWhile_append_dropWhile]⟩

theorem exists_dropWhile_of_spaces (hpad : Spaces pad) (hc : c.isFiller = false)
    (h : uncommented cs = pad ++ c :: more) :
    ∃ rest, cs.dropWhile isFiller = c :: rest ∧ uncommented rest = more := by
  have hdrop := dropWhile_uncommented cs
  rw [h, dropWhile_append_of_pos hpad, dropWhile_cons_of_neg (by simp [hc])] at hdrop
  cases hcs : cs.dropWhile isFiller with
  | nil => simp [hcs, uncommented] at hdrop
  | cons d rest =>
    rw [uncommented_dropWhile hcs] at hdrop
    cases hdrop
    exact ⟨rest, rfl, rfl⟩

/-! ## Reading attributes -/

theorem nextComponent_eq_ok_iff {skip : Component → Bool} :
    nextComponent skip stop cs = .ok (location, c, rest)
      ↔ headLocation stop cs = location ∧ cs.dropWhile skip = c :: rest := by
  unfold nextComponent
  cases cs.dropWhile skip <;> simp

theorem expectIdent_eq_ok_iff : expectIdent stop cs = .ok (name, rest)
    ↔ ∃ d, cs.dropWhile isComment = d :: rest ∧ d.token = .ident name := by
  unfold expectIdent nextComponent
  cases cs.dropWhile isComment with
  | nil => simp
  | cons d rest' =>
    dsimp only
    split
    · rename_i heq
      simp [heq, and_comm]
    rename_i hne
    simp only [reduceCtorEq, List.cons.injEq, false_iff]
    rintro ⟨d', ⟨rfl, -⟩, hd⟩
    exact hne name hd

theorem exists_of_expectIdent (h : expectIdent stop cs = .ok (name, rest)) :
    ∃ d, d.token = .ident name ∧ uncommented cs = d :: uncommented rest := by
  obtain ⟨d, hcs, hd⟩ := expectIdent_eq_ok_iff.1 h
  exact ⟨d, hd, uncommented_eq_cons hcs⟩

theorem exists_expectIdent (stop : Location) (hd : d.token = .ident name)
    (h : uncommented cs = d :: more) :
    ∃ rest, expectIdent stop cs = .ok (name, rest) ∧ uncommented rest = more := by
  obtain ⟨rest, hcs, hrest⟩ := uncommented_eq_cons_iff.1 h
  exact ⟨rest, expectIdent_eq_ok_iff.2 ⟨d, hcs, hd⟩, hrest⟩

theorem nameIsWritten_of_readAttributeName
    (h : readAttributeName stop cs = .ok ((space, name), rest)) :
    ∃ lead part, Spaces lead ∧ Attribute.NameIsWritten part space name ∧
      uncommented cs = lead ++ (part ++ uncommented rest) := by
  obtain ⟨⟨location, c, cs₁⟩, hn, h⟩ := except_bind_ok h
  obtain ⟨lead, hlead, hcs⟩ := exists_spaces_of_dropWhile (nextComponent_eq_ok_iff.1 hn).2
  dsimp only at h
  split at h
  · rename_i hc
    split at h
    · rename_i bar rest' hd
      split at h
      · rename_i hbar
        obtain ⟨⟨name', rest''⟩, he, h⟩ := except_bind_ok h
        cases h
        obtain ⟨d, hname, hrest⟩ := exists_of_expectIdent he
        exact ⟨lead, _, hlead, .inSpace hc hbar hname, by simp [hcs, uncommented_eq_cons hd, hrest]⟩
      · cases h
        exact ⟨lead, _, hlead, .plain hc, hcs⟩
    · cases h
      exact ⟨lead, _, hlead, .plain hc, hcs⟩
  · rename_i hc
    obtain ⟨⟨location₂, bar, cs₂⟩, hn₂, h⟩ := except_bind_ok h
    obtain ⟨pad, hpad, hcs₁⟩ := exists_spaces_of_dropWhile (nextComponent_eq_ok_iff.1 hn₂).2
    split at h
    · rename_i hbar
      obtain ⟨⟨name', rest''⟩, he, h⟩ := except_bind_ok h
      cases h
      obtain ⟨d, hname, hrest⟩ := exists_of_expectIdent he
      exact ⟨lead, _, hlead, .inAnySpace hc hpad hbar hname, by simp [hcs, hcs₁, hrest]⟩
    · cases h
  · rename_i hbar
    obtain ⟨⟨name', rest''⟩, he, h⟩ := except_bind_ok h
    cases h
    obtain ⟨d, hname, hrest⟩ := exists_of_expectIdent he
    exact ⟨lead, _, hlead, .inNoSpace hbar hname, by simp [hcs, hrest]⟩
  · cases h

theorem isFiller_of_token (hc : c.token = t) (ht : t.isFiller = false) : c.isFiller = false := by
  rw [isFiller, hc, ht]

theorem exists_nextComponent (stop : Location) (hpad : Spaces pad) (hc : c.isFiller = false)
    (h : uncommented cs = pad ++ c :: more) :
    ∃ rest, nextComponent isFiller stop cs = .ok (headLocation stop cs, c, rest) ∧
      uncommented rest = more := by
  obtain ⟨rest, hcs, hrest⟩ := exists_dropWhile_of_spaces hpad hc h
  exact ⟨rest, nextComponent_eq_ok_iff.2 ⟨rfl, hcs⟩, hrest⟩

theorem exists_readAttributeName (stop : Location) (hlead : Spaces lead)
    (hname : Attribute.NameIsWritten part space name)
    (hmore : ∀ d ∈ more.head?, d.token ≠ .delim '|')
    (h : uncommented cs = lead ++ (part ++ more)) :
    ∃ rest, readAttributeName stop cs = .ok ((space, name), rest) ∧ uncommented rest = more := by
  cases hname with
  | @plain c name hc =>
    obtain ⟨rest, hn, rfl⟩ := exists_nextComponent stop hlead (isFiller_of_token hc rfl) h
    refine ⟨rest, ?_, rfl⟩
    simp only [readAttributeName, hn, hc, bind, Except.bind]
    split
    · rename_i bar rest' hd
      rw [if_neg (hmore bar (by simp [uncommented_eq_cons hd]))]
      rfl
    · rfl
  | @inSpace c bar d space name hc hbar hd =>
    obtain ⟨rest, hn, hrest⟩ := exists_nextComponent stop hlead (isFiller_of_token hc rfl) h
    obtain ⟨rest', hd', hrest'⟩ := uncommented_eq_cons_iff.1 hrest
    obtain ⟨rest'', he, hrest''⟩ := exists_expectIdent stop hd hrest'
    refine ⟨rest'', ?_, hrest''⟩
    simp [readAttributeName, hn, hc, bind, Except.bind, hd', hbar, he, pure, Except.pure]
  | @inAnySpace c bar d pad name hc hpad hbar hd =>
    rw [cons_append, append_assoc] at h
    obtain ⟨rest, hn, hrest⟩ := exists_nextComponent stop hlead (isFiller_of_token hc rfl) h
    obtain ⟨rest', hn', hrest'⟩ := exists_nextComponent stop hpad (isFiller_of_token hbar rfl) hrest
    obtain ⟨rest'', he, hrest''⟩ := exists_expectIdent stop hd hrest'
    refine ⟨rest'', ?_, hrest''⟩
    simp [readAttributeName, hn, hc, bind, Except.bind, hn', hbar, he, pure, Except.pure]
  | @inNoSpace bar d name hbar hd =>
    obtain ⟨rest, hn, hrest⟩ := exists_nextComponent stop hlead (isFiller_of_token hbar rfl) h
    obtain ⟨rest', he, hrest'⟩ := exists_expectIdent stop hd hrest
    refine ⟨rest', ?_, hrest'⟩
    simp [readAttributeName, hn, hbar, bind, Except.bind, he, pure, Except.pure]

theorem flagIsWritten_readCaseFlag (cs : List Component) :
    ∃ flag, Attribute.FlagIsWritten flag (readCaseFlag cs).1 ∧
      uncommented cs = flag ++ uncommented (readCaseFlag cs).2 := by
  unfold readCaseFlag
  split
  · rename_i c rest hd
    obtain ⟨pad, hpad, hcs⟩ := exists_spaces_of_dropWhile hd
    split
    · rename_i name hc
      split
      · exact ⟨pad ++ [c], .ignoreCase hpad hc ‹_›, by simp [hcs]⟩
      · split
        · exact ⟨pad ++ [c], .keepCase hpad hc ‹_›, by simp [hcs]⟩
        · exact ⟨[], .absent, rfl⟩
    · exact ⟨[], .absent, rfl⟩
  · exact ⟨[], .absent, rfl⟩

theorem exists_readCaseFlag {flag : List Component} (hflag : Attribute.FlagIsWritten flag ignoreCase)
    (htrail : Spaces trail) (h : uncommented cs = flag ++ trail) :
    ∃ rest, readCaseFlag cs = (ignoreCase, rest) ∧ uncommented rest = trail := by
  cases hflag with
  | absent =>
    refine ⟨cs, ?_, h⟩
    rw [readCaseFlag, spaces_uncommented_iff.1 (h ▸ htrail)]
  | @ignoreCase pad c name hpad hc hflag =>
    rw [append_assoc] at h
    obtain ⟨rest, hd, hrest⟩ := exists_dropWhile_of_spaces hpad (isFiller_of_token hc rfl) h
    exact ⟨rest, by simp [readCaseFlag, hd, hc, hflag], hrest⟩
  | @keepCase pad c name hpad hc hflag =>
    rw [append_assoc] at h
    obtain ⟨rest, hd, hrest⟩ := exists_dropWhile_of_spaces hpad (isFiller_of_token hc rfl) h
    have hother : sameIgnoringCase name "i" = false := by
      rw [sameIgnoringCase, eq_of_beq hflag]
      decide +kernel
    exact ⟨rest, by simp [readCaseFlag, hd, hc, hflag, hother], hrest⟩

theorem expectEnd_eq_ok_iff : expectEnd stop cs = .ok () ↔ Spaces (uncommented cs) := by
  rw [expectEnd, spaces_uncommented_iff]
  cases cs.dropWhile isFiller <;> simp

theorem isWritten_of_readAttribute (h : readAttribute stop cs = .ok a) :
    Attribute.IsWritten (uncommented cs) a := by
  obtain ⟨⟨⟨space, name⟩, cs₁⟩, hn, h⟩ := except_bind_ok h
  obtain ⟨lead, part, hlead, hname, hcs⟩ := nameIsWritten_of_readAttributeName hn
  dsimp only at h
  rw [hcs]
  split at h
  · rename_i hd
    cases h
    exact .bare hlead hname (spaces_uncommented_iff.2 hd)
  rename_i c rest hd
  obtain ⟨before, hbefore, hcs₁⟩ := exists_spaces_of_dropWhile hd
  split at h
  · cases h
  rename_i operator hoperator
  obtain ⟨⟨location₂, v, cs₂⟩, hn₂, h⟩ := except_bind_ok h
  obtain ⟨between, hbetween, hrest⟩ := exists_spaces_of_dropWhile (nextComponent_eq_ok_iff.1 hn₂).2
  split at h
  · cases h
  rename_i value hvalue
  obtain ⟨_, hend, h⟩ := except_bind_ok h
  cases h
  obtain ⟨flag, hflag, hcs₂⟩ := flagIsWritten_readCaseFlag cs₂
  rw [hcs₁, hrest, hcs₂]
  exact .test hlead hname hbefore hoperator hbetween hvalue hflag (expectEnd_eq_ok_iff.1 hend)

theorem Token.not_isFiller_of_attributeMatcher? {operator : AttributeMatcher}
    (h : attributeMatcher? t = some operator) : t.isFiller = false ∧ t ≠ .delim '|' := by
  unfold attributeMatcher? at h
  split at h <;> simp_all [Token.isFiller]

theorem Token.not_isFiller_of_attributeValue? {value : String}
    (h : attributeValue? t = some value) : t.isFiller = false := by
  unfold attributeValue? at h
  split at h <;> simp_all [Token.isFiller]

theorem ne_bar_of_spaces {tail : List Component} (hpad : Spaces pad)
    (htail : ∀ d ∈ tail.head?, d.token ≠ .delim '|') :
    ∀ d ∈ (pad ++ tail).head?, d.token ≠ .delim '|' := by
  cases pad with
  | nil => exact htail
  | cons e pad =>
    intro d hd hbar
    have hfiller := hpad e mem_cons_self
    cases hd
    rw [isFiller, hbar] at hfiller
    cases hfiller

/-- **An attribute is read exactly where it is written.** -/
theorem readAttribute_eq_ok_iff :
    readAttribute stop cs = .ok a ↔ Attribute.IsWritten (uncommented cs) a := by
  refine ⟨isWritten_of_readAttribute, fun h => ?_⟩
  generalize hcs : uncommented cs = part at h
  cases h with
  | @bare lead part trail space name hlead hname htrail =>
    have hbar : ∀ d ∈ (trail ++ []).head?, d.token ≠ .delim '|' :=
      ne_bar_of_spaces htrail (by simp)
    rw [append_nil] at hbar
    obtain ⟨rest, hn, rfl⟩ := exists_readAttributeName stop hlead hname hbar hcs
    simp [readAttribute, hn, bind, Except.bind, spaces_uncommented_iff.1 htrail, pure, Except.pure]
  | test hlead hname hbefore hc hbetween hv hflag htrail =>
    obtain ⟨hfiller, hbar⟩ := Token.not_isFiller_of_attributeMatcher? hc
    obtain ⟨rest, hn, hrest⟩ := exists_readAttributeName stop hlead hname
      (ne_bar_of_spaces hbefore (by simpa using hbar)) hcs
    obtain ⟨rest₁, hd, hrest₁⟩ := exists_dropWhile_of_spaces hbefore hfiller hrest
    obtain ⟨rest₂, hn₂, hrest₂⟩ := exists_nextComponent stop hbetween
      (Token.not_isFiller_of_attributeValue? hv) hrest₁
    obtain ⟨rest₃, hf, hrest₃⟩ := exists_readCaseFlag hflag htrail hrest₂
    have hend : expectEnd stop rest₃ = .ok () := expectEnd_eq_ok_iff.2 (hrest₃ ▸ htrail)
    simp [readAttribute, hn, bind, Except.bind, hd, hc, hn₂, hv, hf, hend, pure, Except.pure]

/-! ## Reading conditions -/

theorem isWritten_of_readPseudoElement (hc : c.token = .colon) (hd : d.token = .colon)
    (h : readPseudoElement stop cs = .ok (x, rest)) :
    ∃ e, Simple.IsWritten [c, d, e] x ∧ uncommented cs = e :: uncommented rest := by
  unfold readPseudoElement at h
  split at h
  · cases h
  rename_i e rest' hn
  have hcs := uncommented_eq_cons (nextComponent_eq_ok_iff.1 hn).2
  split at h
  · cases h
    exact ⟨e, .pseudoElement hc hd (.plain ‹_›), hcs⟩
  · cases h
    exact ⟨e, .pseudoElement hc hd (.function ‹_›), hcs⟩
  · cases h

theorem isWritten_of_readPseudo (hc : c.token = .colon) (h : readPseudo stop cs = .ok (x, rest)) :
    ∃ part, Simple.IsWritten (c :: part) x ∧ uncommented cs = part ++ uncommented rest := by
  unfold readPseudo at h
  split at h
  · cases h
  rename_i d rest' hn
  have hcs := uncommented_eq_cons (nextComponent_eq_ok_iff.1 hn).2
  split at h
  · rename_i hd
    obtain ⟨e, hx, hrest⟩ := isWritten_of_readPseudoElement hc hd h
    exact ⟨[d, e], hx, by simp [hcs, hrest]⟩
  · rename_i hd
    split at h <;> rename_i hone <;> cases h
    · exact ⟨[d], .oneColon hc hd hone, hcs⟩
    · exact ⟨[d], .pseudoClass hc (.plain hd) fun _ => by simpa using hone, hcs⟩
  · rename_i hd
    cases h
    exact ⟨[d], .pseudoClass hc (.function hd) (by simp), hcs⟩
  · cases h

theorem isWritten_of_readSimple (h : readSimple stop location c cs = .ok (x, rest)) :
    ∃ part, Simple.IsWritten (c :: part) x ∧ uncommented cs = part ++ uncommented rest := by
  unfold readSimple at h
  split at h
  · obtain ⟨a, ha, h⟩ := except_map_ok h
    cases h
    exact ⟨[], .hasAttribute (readAttribute_eq_ok_iff.1 ha), rfl⟩
  split at h
  · cases h
    exact ⟨[], .tag ‹_›, rfl⟩
  · cases h
    exact ⟨[], .universal ‹_›, rfl⟩
  · cases h
    exact ⟨[], .id ‹_›, rfl⟩
  · obtain ⟨⟨name, rest'⟩, hname, h⟩ := except_map_ok h
    cases h
    obtain ⟨d, hd, hcs⟩ := exists_of_expectIdent hname
    exact ⟨[d], .className ‹_› hd, hcs⟩
  · exact isWritten_of_readPseudo ‹_› h
  · cases h

theorem Component.IsGrouped.exists_leaf (h : c.IsGrouped) (hc : c.token = t)
    (ht : t.opens = none) : ∃ l, c = .leaf l := by
  subst hc
  cases c with
  | leaf l => exact ⟨l, rfl⟩
  | block l b body stop close => exact absurd (h.1.symm.trans ht) (by simp)

/-- What is left behind some components, comments between them apart. -/
def behind : Nat → List Component → List Component
  | 0, cs => cs
  | n + 1, cs => behind n (cs.dropWhile Component.isComment).tail

theorem uncommented_behind (h : uncommented cs = part ++ more) :
    uncommented (behind part.length cs) = more := by
  induction part generalizing cs with
  | nil => exact h
  | cons c part ih =>
    obtain ⟨rest, hcs, hrest⟩ := uncommented_eq_cons_iff.1 h
    rw [length_cons, behind, hcs]
    exact ih hrest

theorem behind_append (h : ∀ c ∈ part, c.isComment = false) (rest : List Component) :
    behind part.length (part ++ rest) = rest := by
  induction part with
  | nil => rfl
  | cons c part ih =>
    obtain ⟨hc, hpart⟩ := forall_mem_cons.1 h
    rw [length_cons, behind, cons_append, dropWhile_cons_of_neg (by simp [hc])]
    exact ih hpart

theorem readSimple_of_isWritten (stop location : Location) (hc : c.IsGrouped)
    (h : Simple.IsWritten (c :: part) x) (hcs : uncommented cs = part ++ more) :
    readSimple stop location c cs = .ok (x, behind part.length cs) := by
  cases h with
  | hasAttribute ha => simp [readSimple, readAttribute_eq_ok_iff.2 ha, Except.map, behind]
  | tag ht | universal ht | id ht =>
    obtain ⟨l, rfl⟩ := hc.exists_leaf ht rfl
    simp [readSimple, ht, behind]
  | className ht hd =>
    obtain ⟨l, rfl⟩ := hc.exists_leaf ht rfl
    obtain ⟨rest, hrest, -⟩ := uncommented_eq_cons_iff.1 hcs
    simp [readSimple, ht, expectIdent, nextComponent, hrest, hd, Except.map, behind]
  | pseudoClass ht hd hone =>
    obtain ⟨l, rfl⟩ := hc.exists_leaf ht rfl
    obtain ⟨rest, hrest, -⟩ := uncommented_eq_cons_iff.1 hcs
    cases hd with
    | plain hd => simp [readSimple, ht, readPseudo, nextComponent, hrest, hd, hone rfl, behind]
    | function hd => simp [readSimple, ht, readPseudo, nextComponent, hrest, hd, behind]
  | oneColon ht hd hone =>
    obtain ⟨l, rfl⟩ := hc.exists_leaf ht rfl
    obtain ⟨rest, hrest, -⟩ := uncommented_eq_cons_iff.1 hcs
    simp [readSimple, ht, readPseudo, nextComponent, hrest, hd, hone, behind]
  | pseudoElement ht hd he =>
    obtain ⟨l, rfl⟩ := hc.exists_leaf ht rfl
    obtain ⟨rest, hrest, hmore⟩ := uncommented_eq_cons_iff.1 hcs
    obtain ⟨rest', hrest', -⟩ := uncommented_eq_cons_iff.1 hmore
    cases he with
    | plain he | function he =>
      simp [readSimple, ht, readPseudo, readPseudoElement, nextComponent, hrest, hd, hrest', he,
        behind]

theorem Token.eq_opener_square (h : t.opens = some .square) : t = .opener .square := by
  unfold Token.opens at h
  split at h <;> cases h
  rfl

theorem Simple.IsWritten.isPlain (h : Simple.IsWritten part x)
    (hgrouped : ∀ c ∈ part, c.IsGrouped) :
    (∀ c ∈ part, c.isComment = false ∧ c.token ≠ .comma) ∧
      ∃ c q, part = c :: q ∧ c.isFiller = false ∧ combinator? c.token = none := by
  cases h with
  | @hasAttribute l body stop close a ha =>
    have htoken : (block l .square body stop close).token = .opener .square :=
      Token.eq_opener_square (hgrouped _ mem_cons_self).1
    simp [isComment, isFiller, htoken, Token.isComment, Token.isFiller, combinator?]
  | tag hc | universal hc | id hc =>
    simp [isComment, isFiller, hc, Token.isComment, Token.isFiller, combinator?]
  | className hc hd | oneColon hc hd =>
    simp [isComment, isFiller, hc, hd, Token.isComment, Token.isFiller, combinator?]
  | pseudoClass hc hd =>
    cases hd with
    | plain hd | function hd =>
      simp [isComment, isFiller, hc, hd, Token.isComment, Token.isFiller, combinator?]
  | pseudoElement hc hd he =>
    cases he with
    | plain he | function he =>
      simp [isComment, isFiller, hc, hd, he, Token.isComment, Token.isFiller, combinator?]

end StyleBlocks
