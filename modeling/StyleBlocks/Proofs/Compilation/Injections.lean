import StyleBlocks.Proofs.Compilation.Residue
import StyleBlocks.Proofs.Compilation.Settings

/-!
# The resolutions that a rule is given

Which resolutions a rule needs is found in the properties that its object and the overridden one
share, by all of their rules together.  For a rule with one selector this comes to the same as
asking for each of its declarations whether one of the overridden object overlaps it.

Main result: `Session.Reachable.settleInherited_exact`.
-/

namespace StyleBlocks

open List

namespace Job

/-- A declaration of a rule needs a resolution over the object `t`, which is overridden: it is none
itself, a declaration of `t` for the pseudo-element overlaps it, and no resolution of the rule does.
-/
def needsResolution (c : Job) (r : Rule) (pseudo : Option String) (t : ObjectId) (d : Declaration) :
    Bool :=
  !d.asksResolution && (c.catalog.declarationsFor t pseudo).any (overlaps ·.property d.property) &&
    !r.declarations.any fun e => e.asksResolution && overlaps e.property d.property

/-- The resolutions over the object `t`: one for each property that needs one, in the order in which
these properties occur first. -/
def resolutionsOver (c : Job) (r : Rule) (pseudo : Option String) (t : ObjectId) :
    List Declaration :=
  ((r.declarations.filter (c.needsResolution r pseudo t)).eraseDupsBy
    fun d e => d.property == e.property).map
      fun d => ⟨d.property, c.resolutionTo t, false, d.location⟩

/-! ## The walk -/

mutual

/-- A node whose rules have the resolutions that they are given at their start. -/
def injectNode (c : Job) : Node → Node
  | .rule head body =>
    .rule head ((c.injections ⟨head, body⟩).map .declaration ++ injectNodes c body)
  | .group head body => .group head (if head.holdsFrames then body else injectNodes c body)
  | node => node

def injectNodes (c : Job) : List Node → List Node
  | [] => []
  | node :: nodes => injectNode c node :: injectNodes c nodes

end

variable {c : Job}

/-- **The walk puts resolutions at the start of rules and changes nothing else.** -/
theorem eq_injectNodes_of_walks {table table' : SelectorTable} {nodes nodes' : List Node}
    (hw : Walks c.addResolutions table nodes nodes' table') (ht : table.IsSound) :
    table'.IsSound ∧ nodes' = c.injectNodes nodes := by
  induction hw with
  | nil => exact ⟨ht, rfl⟩
  | @leaf _ _ node _ _ hleaf _ ih =>
    have hnode : c.injectNode node = node := by
      cases node with
      | rule => cases hleaf
      | group head body => exact congrArg (Node.group head) (if_pos hleaf)
      | _ => rfl
    exact ⟨(ih ht).1, by rw [injectNodes, hnode, (ih ht).2]⟩
  | group hf _ _ ihbody ih =>
    obtain ⟨ht₁, hbody⟩ := ihbody ht
    exact ⟨(ih ht₁).1, by rw [injectNodes, injectNode, if_neg (by simp [hf]), hbody, (ih ht₁).2]⟩
  | rule hv _ _ ihbody ih =>
    obtain ⟨ht₁, hbody⟩ := ihbody (c.makes_addResolutions.isSound _ _ ht)
    obtain ⟨selectors, hparse, hedit⟩ := addResolutions_ok ht hv
    refine ⟨(ih ht₁).1, ?_⟩
    rw [injectNodes, injectNode, injections, hparse, hedit, RuleEdit.applyBody_of_change_eq_id _ rfl,
      hbody, (ih ht₁).2]
    exact congrArg (Node.rule _ · :: _) (append_nil _)

end Job

/-! ## Settling declarations -/

namespace Injections

variable {explicit : List String} {conflict : InheritedConflict} {i : Injections}

/-- A declaration needs to be settled: it is no resolution, it overlaps a property that is in
conflict, and the rule does not resolve the conflict itself. -/
def needs (explicit : List String) (conflict : InheritedConflict) (d : Declaration) : Bool :=
  !d.asksResolution && conflict.properties.any (overlaps · d.property) &&
    !explicit.any (overlaps · d.property)

def IsSettled (conflict : InheritedConflict) (i : Injections) : Prop :=
  ∀ e ∈ i.found, (conflict.pseudo, e.property) ∈ i.settled

theorem addDeclaration_ite (i : Injections) (d : Declaration) :
    i.addDeclaration explicit conflict d
      = if needs explicit conflict d && decide ((conflict.pseudo, d.property) ∉ i.settled) then
          if i.found.any fun e => e.property == d.property && e.value == conflict.value then
            { i with settled := (conflict.pseudo, d.property) :: i.settled }
          else ⟨(conflict.pseudo, d.property) :: i.settled,
            i.found ++ [⟨d.property, conflict.value, false, d.location⟩]⟩
        else i := by
  unfold addDeclaration needs
  by_cases hsettled : (conflict.pseudo, d.property) ∈ i.settled
  · simp [hsettled]
  · cases d.asksResolution <;> cases conflict.properties.any (overlaps · d.property) <;>
      cases explicit.any (overlaps · d.property) <;> simp [hsettled]

theorem addDeclaration_eq (hi : i.IsSettled conflict) (d : Declaration) :
    i.addDeclaration explicit conflict d
      = if needs explicit conflict d && decide ((conflict.pseudo, d.property) ∉ i.settled) then
          ⟨(conflict.pseudo, d.property) :: i.settled,
            i.found ++ [⟨d.property, conflict.value, false, d.location⟩]⟩
        else i := by
  rw [addDeclaration_ite]
  split
  · rename_i hneeds
    have hsettled : (conflict.pseudo, d.property) ∉ i.settled := by
      simpa using (Bool.and_eq_true_iff.1 hneeds).2
    have hfound : (i.found.any fun e => e.property == d.property && e.value == conflict.value)
        = false := by
      refine any_eq_false.2 fun e he heq => hsettled ?_
      have hproperty : e.property = d.property := by
        simpa using (Bool.and_eq_true_iff.1 heq).1
      exact hproperty ▸ hi e he
    rw [hfound]
    rfl
  · rfl

theorem isSettled_addDeclaration (hi : i.IsSettled conflict) (d : Declaration) :
    (i.addDeclaration explicit conflict d).IsSettled conflict := by
  rw [addDeclaration_eq hi]
  split
  · intro e he
    rcases mem_append.1 he with he | he
    · exact mem_cons_of_mem _ (hi e he)
    · rw [mem_singleton.1 he]
      exact mem_cons_self
  · exact hi

/-- **What settling the declarations of a rule finds**: a resolution for the first one of each
property that needs it. -/
theorem found_foldl (hi : i.IsSettled conflict) (ds : List Declaration) :
    (ds.foldl (addDeclaration explicit conflict) i).found
      = i.found ++ ((ds.filter fun d => needs explicit conflict d &&
          decide ((conflict.pseudo, d.property) ∉ i.settled)).eraseDupsBy
            fun d e => d.property == e.property).map
              fun d => ⟨d.property, conflict.value, false, d.location⟩ := by
  induction ds generalizing i with
  | nil => exact (append_nil _).symm
  | cons d ds ih =>
    rw [foldl_cons, ih (isSettled_addDeclaration hi d), addDeclaration_eq hi, filter_cons]
    split
    · rw [eraseDupsBy_cons, map_cons, append_assoc, singleton_append, filter_filter]
      -- what is settled from now on is what is no longer first
      congr 4
      refine filter_congr fun e _ => ?_
      by_cases heq : e.property = d.property <;> simp [heq]
    · rfl

end Injections

/-! ## Shared properties -/

/-- **Shared properties and overlapping declarations.**  Where an object has a declaration, it
shares a property that overlaps it with another object exactly if that one has a declaration that
does. -/
theorem any_sharedPropertiesFor {g : Catalog} {x t : ObjectId} {s : StyleObject}
    (hx : g.object? x = some s) {s' : StyleObject} (ht : g.object? t = some s')
    {pseudo : Option String} {d : Declaration} (hd : d ∈ s.contributions.declarationsFor pseudo) :
    (sharedPropertiesFor g x t pseudo).any (overlaps · d.property)
      = (g.declarationsFor t pseudo).any (overlaps ·.property d.property) := by
  have hdeclarations : g.declarationsFor t pseudo = s'.contributions.declarationsFor pseudo := by
    rw [Catalog.declarationsFor, ht]
    rfl
  rw [Bool.eq_iff_iff, hdeclarations]
  simp only [any_eq_true, mem_sharedPropertiesFor hx ht, Contributions.mem_touched]
  constructor
  · rintro ⟨p, ⟨-, e, he, hp⟩, hoverlaps⟩
    exact ⟨e, he, exists_covered_overlaps_iff.1 ⟨p, hp, hoverlaps⟩⟩
  · rintro ⟨e, he, hoverlaps⟩
    -- what both cover is touched by both, and overlaps the property again
    obtain ⟨p, hpe, hpd⟩ := overlaps_iff.1 hoverlaps
    have hp := lowercase_mem_covered p
    exact ⟨p, ⟨⟨d, hd, hpd⟩, e, he, hpe⟩,
      overlaps_iff.2 ⟨lowercase p, hp, mem_covered_trans hpd hp⟩⟩

theorem Catalog.Orderly.lt_of_keyObject? {g : Catalog} {n : Nat} (h : g.Orderly n) {s : Selector}
    {x : ObjectId} (hx : (g.block n).keyObject? s = some x) :
    x.index < (g.block n).objects.length := by
  obtain ⟨_, _, -, hlocal, hfind⟩ := Block.keyObject?_eq_some.1 hx
  exact (h.find? hfind hlocal).2.1

namespace Workspace.Sound

variable {loading : List String} {w : Workspace} {n : Nat} {sheet : Stylesheet} {r : Rule}
  {selector : Selector}

theorem exists_keyObject (h : w.Sound loading)
    (hsheet : (w.catalog.block n).stylesheet = some sheet)
    (hr : r ∈ rulesOf (clearNodes sheet.nodes)) {selectors : List Selector}
    (hparse : Selector.parseList r.selector = .ok selectors) (hselector : selector ∈ selectors) :
    ∃ x s, (w.catalog.job n sheet).keyObject? selector = some x ∧ x.block = n ∧
      w.catalog.object? x = some s ∧ ∀ d ∈ r.declarations, d.asksResolution = false →
        d ∈ s.contributions.declarationsFor selector.key.pseudoName? := by
  obtain ⟨r₀, hr₀, hhead, hdeclarations⟩ := exists_of_mem_clearNodes hr
  have horderly := h.orderly (Block.isComplete_of_stylesheet hsheet)
  obtain ⟨file, hreflects⟩ := (h.soundAt n sheet hsheet).reflects
  obtain ⟨selectors₀, hparse₀, hknown⟩ := hreflects.knows r₀ hr₀
  rw [← hhead, hparse] at hparse₀
  obtain rfl : selectors = selectors₀ := Except.ok.inj hparse₀
  obtain ⟨x, hx⟩ := hknown selector hselector
  obtain rfl : x.block = n := Job.block_of_keyObject? (c := w.catalog.job n sheet) horderly hx
  have hlt := horderly.lt_of_keyObject? hx
  have hs : w.catalog.object? x = some _ := getElem?_eq_getElem hlt
  refine ⟨x, _, hx, rfl, hs, fun d hd hasks => (h.mem_declarationsFor_iff hsheet hs).2 ?_⟩
  have hkey : (x, selector.key.pseudoName?) ∈ (w.catalog.block x.block).keysOf r₀ := by
    rw [Block.keysOf, ← hhead, hparse]
    exact mem_filterMap.2 ⟨selector, hselector, by rw [hx]; rfl⟩
  rw [hdeclarations] at hd
  obtain ⟨hd, hlanguage⟩ := mem_filter.1 hd
  exact ⟨r₀, hr₀, hkey, mem_filter.2 ⟨hd, by rw [hlanguage, hasks]; rfl⟩⟩

/-- **A rule with one selector is given the resolutions that its declarations need** over the object
that its object overrides. -/
theorem injections_eq (h : w.Sound loading) (hsheet : (w.catalog.block n).stylesheet = some sheet)
    (hr : r ∈ rulesOf (clearNodes sheet.nodes))
    (hparse : Selector.parseList r.selector = .ok [selector]) :
    ∃ x, (w.catalog.job n sheet).keyObject? selector = some x ∧
      (w.catalog.job n sheet).injections r = (w.catalog.overridden? x).toList.flatMap
        ((w.catalog.job n sheet).resolutionsOver r selector.key.pseudoName?) := by
  obtain ⟨x, s, hx, rfl, hs, hown⟩ :=
    h.exists_keyObject hsheet hr hparse (mem_singleton_self _)
  refine ⟨x, hx, ?_⟩
  have hconflict : (w.catalog.job x.block sheet).inheritedConflict? selector
      = (w.catalog.overridden? x).map fun t => ⟨sharedPropertiesFor w.catalog x t
          selector.key.pseudoName?, selector.key.pseudoName?,
          (w.catalog.job x.block sheet).resolutionTo t⟩ := by
    unfold Job.inheritedConflict?
    rw [hx]
    exact Option.map_eq_bind.symm
  rw [Job.injections, hparse]
  dsimp only
  rw [Job.injectionsFor]
  cases ht : w.catalog.overridden? x with
  | none =>
    rw [ht] at hconflict
    simp [hconflict]
  | some t =>
    rw [ht, Option.map_some] at hconflict
    obtain ⟨-, hti, -⟩ := h.overridden (Block.isComplete_of_stylesheet hsheet) ht
    have hts : w.catalog.object? t = some _ := getElem?_eq_getElem hti
    rw [filterMap_cons_some hconflict, filterMap_nil, foldl_cons, foldl_nil,
      Injections.found_foldl (fun e he => by cases he), Option.toList_some, flatMap_singleton,
      Job.resolutionsOver, nil_append]
    congr 2
    refine filter_congr fun d hd => ?_
    simp only [Injections.needs, Job.needsResolution, not_mem_nil, not_false_eq_true,
      decide_true, Bool.and_true, any_map, any_filter, Function.comp_def]
    cases hasks : d.asksResolution with
    | true => rfl
    | false =>
      rw [any_sharedPropertiesFor hs hts (hown d hd hasks)]
      rfl

end Workspace.Sound

/-- The passes of a loaded block up to the one for inherited conflicts succeed.  That one puts
resolutions at the start of the rules that are left. -/
theorem Session.Reachable.settleInherited_ok {s : Session} (hs : s.Reachable) {n : Nat}
    {sheet : Stylesheet} (hsheet : (s.catalog.block n).stylesheet = some sheet) :
    ∃ k k', Pass.sequence ((passes (s.catalog.job n sheet) s.library.options).take 2)
        { sheet := sheet } = (k, none) ∧
      (s.catalog.job n sheet).settleInherited k = (k', none) ∧
      k'.sheet = { k.sheet with nodes := (s.catalog.job n sheet).injectNodes k.sheet.nodes } ∧
      ∀ r ∈ k.sheet.rules, r ∈ rulesOf (clearNodes sheet.nodes) := by
  set c := s.catalog.job n sheet with hc
  obtain ⟨k₄, hk₄, -⟩ := hs.earlyPasses_ok hsheet
  obtain ⟨h₁, hk₄⟩ := Pass.sequence_cons_ok hk₄
  obtain ⟨h₂, hk₄⟩ := Pass.sequence_cons_ok hk₄
  obtain ⟨h₃, -⟩ := Pass.sequence_cons_ok hk₄
  refine ⟨(clearPass (c.debugStatements { sheet := sheet }).1).1,
    (c.settleInherited (clearPass (c.debugStatements { sheet := sheet }).1).1).1, ?_,
    Prod.ext rfl h₃, ?_, fun r hr => ?_⟩
  · show Pass.sequence [c.debugStatements, clearPass] _ = _
    rw [Pass.sequence_cons_of_ok h₁, Pass.sequence_cons_of_ok h₂]
    rfl
  · have hwalk := (Job.eq_injectNodes_of_walks (walks_editNodes h₃) SelectorTable.isSound_empty).2
    exact congrArg (fun nodes => { sheet with nodes := nodes }) hwalk
  · rw [← map_snd_placedRules false, ← placedRules_debugNodes c false {}, map_snd_placedRules false]
    exact hr

/-- **Inherited conflicts are resolved exactly.**  When the debug statements of a loaded block are
carried out and the block language is taken out, the pass for inherited conflicts succeeds.  It puts
resolutions at the start of rules and changes nothing else in the stylesheet.  A rule with one
selector, whose key names an object of the block, is given no resolution if that object overrides
nothing.  Otherwise it is given one for each property of a declaration that is no resolution, if the
overridden object has a declaration for the pseudo-element of the selector that overlaps the
property and the rule has no resolution that does, in the order in which these properties occur
first. -/
theorem Session.Reachable.settleInherited_exact {s : Session} (hs : s.Reachable) {n : Nat}
    {sheet : Stylesheet} (hsheet : (s.catalog.block n).stylesheet = some sheet) :
    ∃ k k', Pass.sequence ((passes (s.catalog.job n sheet) s.library.options).take 2)
        { sheet := sheet } = (k, none) ∧
      (s.catalog.job n sheet).settleInherited k = (k', none) ∧
      k'.sheet = { k.sheet with nodes := (s.catalog.job n sheet).injectNodes k.sheet.nodes } ∧
      ∀ r ∈ k.sheet.rules, ∀ selector, Selector.parseList r.selector = .ok [selector] →
        ∃ x, (s.catalog.job n sheet).keyObject? selector = some x ∧
          (s.catalog.job n sheet).injections r = (s.catalog.overridden? x).toList.flatMap
            ((s.catalog.job n sheet).resolutionsOver r selector.key.pseudoName?) := by
  obtain ⟨k, k', hk, hk', hsheet', hrules⟩ := hs.settleInherited_ok hsheet
  exact ⟨k, k', hk, hk', hsheet', fun r hr selector hparse =>
    hs.sound.injections_eq hsheet (hrules r hr) hparse⟩

/-- A block overrides a class: `margin-top` is part of what the other block sets, `top` is resolved
by the rule itself, and `left` is not set there. -/
def partialOverride : Session :=
  .ofFiles [("b.css", ".a \x7b margin: 0; top: 0 \x7d"),
    ("c.css", "@block-reference b from \"b.css\"; :scope \x7b extends: b \x7d " ++
      ".a \x7b margin-top: 1px; top: 1px; top: resolve(\"b.a\"); left: 0; margin: 1px \x7d")]
    ["c.css"]

theorem settleInherited_exact_partialOverride : ∃ sheet,
    (partialOverride.catalog.block 0).stylesheet = some sheet ∧
    ∃ k k', Pass.sequence ((passes (partialOverride.catalog.job 0 sheet)
        partialOverride.library.options).take 2) { sheet := sheet } = (k, none) ∧
      (partialOverride.catalog.job 0 sheet).settleInherited k = (k', none) ∧
      ∃ r ∈ k.sheet.rules, ∃ selector x, Selector.parseList r.selector = .ok [selector] ∧
        (partialOverride.catalog.job 0 sheet).keyObject? selector = some x ∧
        (partialOverride.catalog.job 0 sheet).injections r
          = (partialOverride.catalog.overridden? x).toList.flatMap
            ((partialOverride.catalog.job 0 sheet).resolutionsOver r selector.key.pseudoName?) ∧
        ((partialOverride.catalog.job 0 sheet).injections r).map (·.property)
          = ["margin-top", "margin"] := by
  have hgiven : (partialOverride.catalog.block 0).stylesheet.any (fun sheet =>
      (Pass.sequence ((passes (partialOverride.catalog.job 0 sheet)
        partialOverride.library.options).take 2) { sheet := sheet }).1.sheet.rules.any fun r =>
          (Selector.parseList r.selector).toOption.any (·.length == 1) &&
          ((partialOverride.catalog.job 0 sheet).injections r).map (·.property)
            == ["margin-top", "margin"]) = true := by
    decide +kernel
  obtain ⟨sheet, hsheet, hgiven⟩ := (Option.any_eq_true _ _).1 hgiven
  have hreachable : partialOverride.Reachable := Session.reachable_ofFiles _ _
  obtain ⟨k, k', hk, hk', -, hexact⟩ := hreachable.settleInherited_exact hsheet
  rw [hk] at hgiven
  obtain ⟨r, hr, hgiven⟩ := List.any_eq_true.1 hgiven
  obtain ⟨hone, hproperties⟩ := Bool.and_eq_true_iff.1 hgiven
  obtain ⟨selectors, hselectors, hlength⟩ := (Option.any_eq_true _ _).1 hone
  obtain ⟨selector, rfl⟩ := List.length_eq_one_iff.1 (eq_of_beq hlength)
  have hparse := except_toOption_some hselectors
  obtain ⟨x, hx, hinjections⟩ := hexact r hr selector hparse
  exact ⟨sheet, hsheet, k, k', hk, hk', r, hr, selector, x, hparse, hx, hinjections,
    eq_of_beq hproperties⟩

end StyleBlocks
