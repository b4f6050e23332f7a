import Mathlib.Data.List.Forall2
import StyleBlocks.Proofs.Session.Loading

/-!
# The rules that style an object

What a stylesheet says about an object can be read off its rules one by one: a rule says something
about the object with a path, for a pseudo-element, if a key among its selectors has both and a
declaration of the rule is neither of the block language nor a resolution.

Main result: `Session.Reachable.contributions_follow_rules`.
-/

namespace StyleBlocks

variable {pseudo : Option String} {b : Block} {i : Nat}

/-- The declaration is neither of the block language nor a resolution. -/
def Declaration.isConcrete (d : Declaration) : Bool :=
  !languageProperties.contains d.property && !d.asksResolution

/-- The compound names the object with a path, for a pseudo-element. -/
def Compound.names (c : Compound) (path : ObjectPath) (pseudo : Option String) : Bool :=
  c.pseudoName? == pseudo &&
    match ObjectPath.ofCompound c with
    | .ok (p, _) => p == path
    | .error _ => false

theorem Compound.names_eq_true {c : Compound} {path : ObjectPath} : c.names path pseudo = true ↔
      c.pseudoName? = pseudo ∧ ∃ rest, ObjectPath.ofCompound c = .ok (path, rest) := by
  unfold Compound.names
  rw [Bool.and_eq_true, beq_iff_eq]
  cases ObjectPath.ofCompound c with
  | error e => simp
  | ok read => simp [Prod.ext_iff]

/-- A key among the rule's selectors names the object with a path, for a pseudo-element. -/
def Rule.names (r : Rule) (path : ObjectPath) (pseudo : Option String) : Bool :=
  match Selector.parseList r.selector with
  | .ok selectors => selectors.any fun s => s.key.names path pseudo
  | .error _ => false

namespace Block

theorem keyObject?_eq_some_iff (hb : b.WellFormed) (hi : i < b.objects.length) {s : Selector} :
    b.keyObject? s = some ⟨b.number, i⟩ ↔
      ∃ rest, ObjectPath.ofCompound s.key = .ok (b.pathTo i, rest) := by
  rw [keyObject?_eq_some]
  constructor
  · rintro ⟨path, rest, hpath, hlocal, hfind⟩
    obtain ⟨-, -, heq⟩ := pathTo_of_find? hb hfind
    refine ⟨rest, ?_⟩
    rw [hpath, heq, ObjectPath.toLocal, ← hlocal]
  · rintro ⟨rest, hpath⟩
    exact ⟨_, rest, hpath, block_pathTo i, hb.find i hi⟩

/-- **The objects that a rule styles are those that it names.** -/
theorem mem_keysOf_iff (hb : b.WellFormed) (hi : i < b.objects.length) {r : Rule} :
    (⟨b.number, i⟩, pseudo) ∈ b.keysOf r ↔ r.names (b.pathTo i) pseudo = true := by
  unfold keysOf Rule.names
  cases Selector.parseList r.selector with
  | error e => simp
  | ok selectors =>
    rw [List.mem_filterMap, List.any_eq_true]
    refine exists_congr fun s => and_congr_right fun _ => ?_
    rw [Compound.names_eq_true, ← keyObject?_eq_some_iff hb hi, Option.map_eq_some_iff]
    constructor
    · rintro ⟨id, hid, heq⟩
      obtain ⟨rfl, rfl⟩ := Prod.mk.inj heq
      exact ⟨rfl, hid⟩
    · rintro ⟨rfl, hid⟩
      exact ⟨_, hid, rfl⟩

end Block

/-! ## Contributions -/

/-- What a rule contributes to each object that it styles: its number, its concrete declarations in
their order, and the properties that these touch. -/
structure Contribution.IsOf (r : Rule) (c : Contribution) : Prop where
  rule : c.rule = r.id
  declarations : c.declarations = r.declarations.filter Declaration.isConcrete
  touched : ∀ p, p ∈ c.touched ↔ ∃ d ∈ r.declarations, d.isConcrete = true ∧ p ∈ covered d.property

theorem Block.contributionOf_isOf (file : String) (r : Rule) :
    (Block.contributionOf file r).IsOf r := by
  refine ⟨rfl, rfl, fun p => ?_⟩
  have hdeclarations : (Block.contributionOf file r).declarations
      = r.declarations.filter Declaration.isConcrete := rfl
  rw [Contribution.touched, mem_sortedSet, List.mem_flatMap, hdeclarations]
  simp only [List.mem_filter, and_assoc]

theorem Block.styles_eq (hb : b.WellFormed) (hi : i < b.objects.length) (pseudo : Option String)
    (r : Rule) : b.styles i pseudo r
      = (r.names (b.pathTo i) pseudo && r.declarations.any Declaration.isConcrete) := by
  have hconcrete : (!(BlockReader.concreteDeclarations r).isEmpty)
      = r.declarations.any Declaration.isConcrete := by
    change (!(r.declarations.filter Declaration.isConcrete).isEmpty) = _
    rw [Bool.eq_iff_iff]
    simp
  have hnames : (b.keysOf r).contains (⟨b.number, i⟩, pseudo) = r.names (b.pathTo i) pseudo := by
    rw [Bool.eq_iff_iff, List.contains_iff_mem]
    exact mem_keysOf_iff hb hi
  rw [styles, hconcrete, hnames]

theorem Block.Mirrors.forall₂ {file : String} {rules : List Rule} (h : b.Mirrors file rules)
    (hb : b.WellFormed) {o : StyleObject} (ho : b.objects[i]? = some o) (pseudo : Option String) :
    List.Forall₂ Contribution.IsOf
      (rules.filter fun r =>
        r.names (b.pathTo i) pseudo && r.declarations.any Declaration.isConcrete)
      (o.contributions.forPseudo pseudo) := by
  have hsaid : o.contributions.forPseudo pseudo
      = (rules.filter (b.styles i pseudo)).map (contributionOf file) := by
    have hmirror := h i pseudo
    rwa [contributionsAt, ho] at hmirror
  rw [hsaid, List.filter_congr fun r _ => styles_eq hb (List.getElem?_eq_some_iff.1 ho).1 pseudo r]
  exact List.forall₂_map_right_iff.2 (List.forall₂_same.2 fun r _ => contributionOf_isOf file r)

/-- **What is said about an object.**  A block to which an identifier leads has its stylesheet.  For
each object and each pseudo-element, the contributions are those of the rules of the stylesheet that
name the object for the pseudo-element and have a concrete declaration, in the order of the text and
each once. -/
theorem Session.Reachable.contributions_follow_rules {s : Session} (hs : s.Reachable) {k : String}
    {n : Nat} (hn : s.catalog.byIdentifier? k = some n) :
    ∃ sheet, (s.catalog.block n).stylesheet = some sheet ∧
      ∀ (i : Nat) (o : StyleObject), s.catalog.object? ⟨n, i⟩ = some o → ∀ pseudo,
        List.Forall₂ Contribution.IsOf
          (sheet.rules.filter fun r => r.names (s.catalog.pathTo ⟨n, i⟩) pseudo &&
            r.declarations.any Declaration.isConcrete)
          (o.contributions.forPseudo pseudo) := by
  obtain ⟨sheet, hsheet⟩ := Option.isSome_iff_exists.1 (hs.isComplete_of_byIdentifier? hn)
  obtain ⟨file, hreflects⟩ := (hs.sound.soundAt n sheet hsheet).reflects
  exact ⟨sheet, hsheet, fun i o ho => hreflects.mirrors.forall₂ hreflects.wellFormed ho⟩

/-- An object that a rule names twice and for a pseudo-element as well, and that a rule in an
at-rule and a rule in another rule name. -/
def repeatedKeys : Session :=
  .ofFiles [("a.css", ".a, .a::before, .b .a \x7b color: red \x7d " ++
    "@media print \x7b .a \x7b margin: 0; color: resolve(\"b.a\") \x7d \x7d " ++
    ".b \x7b .a::before \x7b top: 0 \x7d \x7d .a \x7b color: resolve(\"b.a\") \x7d")] ["a.css"]

theorem repeatedKeys_said : repeatedKeys.catalog.byIdentifier? "a.css" = some 0 ∧
    ((repeatedKeys.catalog.object? ⟨0, 1⟩).map fun o =>
      ((o.contributions.forPseudo none).map Contribution.rule,
        (o.contributions.forPseudo (some "before")).map Contribution.rule))
      = some ([0, 1], [0, 2]) := by
  decide +kernel

theorem contributions_follow_rules_repeatedKeys : ∃ sheet o,
    (repeatedKeys.catalog.block 0).stylesheet = some sheet ∧
    repeatedKeys.catalog.object? ⟨0, 1⟩ = some o ∧
    (o.contributions.forPseudo (some "before")).map Contribution.rule = [0, 2] ∧
    List.Forall₂ Contribution.IsOf
      (sheet.rules.filter fun r => r.names (repeatedKeys.catalog.pathTo ⟨0, 1⟩) (some "before") &&
        r.declarations.any Declaration.isConcrete)
      (o.contributions.forPseudo (some "before")) := by
  obtain ⟨hn, hsaid⟩ := repeatedKeys_said
  obtain ⟨o, ho, hrules⟩ := Option.map_eq_some_iff.1 hsaid
  obtain ⟨sheet, hsheet, hfollow⟩ :=
    Session.Reachable.contributions_follow_rules (Session.reachable_ofFiles _ _) hn
  exact ⟨sheet, o, hsheet, ho, (Prod.mk.inj hrules).2, hfollow 1 o ho (some "before")⟩

end StyleBlocks
