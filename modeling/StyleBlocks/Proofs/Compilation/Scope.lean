import StyleBlocks.Proofs.Compilation.Stages
import StyleBlocks.Proofs.Session.Loading

/-!
# What loading promises to compilation

Loading checks the debug statements and reads every compound of every selector.  Complete blocks do
not change, so at any later time the passes before settling find what they look for: they do not
fail, and the classes they write are those of objects that the block sees.

Main result: `Session.Reachable.passes_in_scope`.
-/

namespace StyleBlocks

open SelectorTable List Selector

variable {compound : Compound} {path : ObjectPath} {r : Rule} {sheet : Stylesheet} {n : Nat}

/-! ## Selectors -/

namespace Catalog

variable {g : Catalog}

/-- The object that a path stands for in a selector of the block `n`: one that the block itself has
or, behind the name of a reference, a global state that is found through the reference. -/
inductive InScope (g : Catalog) (n : Nat) (path : ObjectPath) (id : ObjectId) : Prop
  | own (hp : path.block = none) (hblock : id.block = n)
      (hindex : id.index < (g.block n).objects.length) (hpath : g.pathTo id = path)
  | foreign {name : String} {target : Nat} (hp : path.block = some name)
      (hname : (g.block n).reference? name = some target)
      (hfind : g.find? target path.toLocal = some id)
      (hglobal : (g.object? id).any StyleObject.isGlobal = true)

/-- The second compound has the class of an object in the place of the object's path. -/
def WritesCompound (g : Catalog) (n : Nat) (compound written : Compound) : Prop :=
  ∃ path id, ObjectPath.ofCompound compound = .ok (path, compound.filter Simple.isPseudo) ∧
    g.InScope n path id ∧ written = .className (g.className id) :: compound.filter Simple.isPseudo

/-- The second selector is the first one written with the classes of objects in scope; the key is
one of the block itself. -/
structure WritesSelector (g : Catalog) (n : Nat) (s written : Selector) : Prop where
  combinators : written.combinators = s.combinators
  compounds : List.Forall₂ (g.WritesCompound n) s.compounds written.compounds
  key : ∃ path rest, ObjectPath.ofCompound s.key = .ok (path, rest) ∧ path.block = none

theorem Sees.inScope (h : g.Orderly n) {id : ObjectId} (hs : g.Sees n path id) :
    g.InScope n path id := by
  cases hs with
  | own hp hf =>
    obtain ⟨hblock, hindex, hpath⟩ := h.find? hf hp
    exact .own hp hblock hindex hpath
  | foreign hp hname _ hfind _ hglobal => exact .foreign hp hname hfind hglobal

theorem compileCompound_eq {rest : Compound} {id : ObjectId}
    (hpath : ObjectPath.ofCompound compound = .ok (path, rest))
    (hnamed : g.named? n path = some id) :
    g.compileCompound n compound = .ok (.className (g.className id) :: rest) := by
  unfold compileCompound
  rw [hpath]
  change (pure (path, rest) >>= _) = (Except.ok _ : Except OutputFault Compound)
  rw [pure_bind]
  dsimp only
  rw [hnamed]
  rfl

theorem compileCompound_of_reads (h : g.Orderly n) (hr : g.Reads n compound) :
    ∃ written, g.compileCompound n compound = .ok written ∧ g.WritesCompound n compound written := by
  obtain ⟨path, rest, id, hpath, hsees⟩ := hr
  obtain rfl := (ObjectPath.ofCompound_ok_iff.1 hpath).2.2
  exact ⟨_, compileCompound_eq hpath hsees.named?_eq, path, id, hpath, hsees.inScope h, rfl⟩

theorem compileContext_of_reads (h : g.Orderly n) {context : List (Compound × Combinator)}
    (hr : ∀ p ∈ context, g.Reads n p.1) :
    ∃ written, (context.mapM fun p : Compound × Combinator =>
        (g.compileCompound n p.1 >>= fun c => .ok (c, p.2) : Except OutputFault _)) = .ok written ∧
      written.map Prod.snd = context.map Prod.snd ∧
      Forall₂ (g.WritesCompound n) (context.map Prod.fst) (written.map Prod.fst) := by
  induction context with
  | nil => exact ⟨[], rfl, rfl, .nil⟩
  | cons p context ih =>
    obtain ⟨c, hc, hwrites⟩ := compileCompound_of_reads h (hr p (by simp))
    obtain ⟨written, hw, hcombinators, hcompounds⟩ := ih fun q hq => hr q (by simp [hq])
    refine ⟨(c, p.2) :: written, ?_, by simp [hcombinators], .cons hwrites hcompounds⟩
    rw [mapM_cons, hc, hw]
    rfl

/-- **A selector that loading has read can be compiled.** -/
theorem compileSelector_of_reads (h : g.Orderly n) {s : Selector}
    (hr : ∀ compound ∈ s.compounds, g.Reads n compound)
    (hkey : ∃ id, (g.block n).keyObject? s = some id) :
    ∃ written, g.compileSelector n s = .ok written ∧ g.WritesSelector n s written := by
  have hcontext : ∀ p ∈ s.context, g.Reads n p.1 := fun p hp =>
    hr p.1 (mem_append_left _ (mem_map.2 ⟨p, hp, rfl⟩))
  obtain ⟨context, hc, hcombinators, hcompounds⟩ := compileContext_of_reads h hcontext
  obtain ⟨key, hk, hwrites⟩ := compileCompound_of_reads h (hr s.key (by simp [compounds]))
  refine ⟨⟨context, key⟩, ?_, hcombinators, rel_append hcompounds (.cons hwrites .nil), ?_⟩
  · change ((s.context.mapM fun p : Compound × Combinator =>
      (g.compileCompound n p.1 >>= fun c => .ok (c, p.2) : Except OutputFault _)) >>=
      fun context => g.compileCompound n s.key >>= fun key => .ok (Selector.mk context key)) = _
    rw [hc, hk]
    rfl
  obtain ⟨id, hid⟩ := hkey
  obtain ⟨path, rest, hpath, hlocal, -⟩ := Block.keyObject?_eq_some.1 hid
  exact ⟨path, rest, hpath, hlocal⟩

end Catalog

/-! ## Loaded blocks -/

namespace Workspace.Sound

variable {loading : List String} {w : Workspace}

theorem exists_written (h : w.Sound loading) (hsheet : (w.catalog.block n).stylesheet = some sheet)
    (hr : r ∈ sheet.rules) :
    ∃ selectors, parseList r.selector = .ok selectors ∧ ∀ s ∈ selectors, ∃ written,
      w.catalog.compileSelector n s = .ok written ∧ w.catalog.WritesSelector n s written := by
  have hsound := h.soundAt n sheet hsheet
  have horderly := h.orderly (Block.isComplete_of_stylesheet hsheet)
  obtain ⟨file, hreflects⟩ := hsound.reflects
  obtain ⟨selectors, hparse, hknown⟩ := hreflects.knows r hr
  obtain ⟨selectors', hparse', hreads⟩ := hsound.readsRules r hr
  obtain rfl : selectors = selectors' := Except.ok.inj (hparse.symm.trans hparse')
  exact ⟨selectors, hparse, fun s hs =>
    Catalog.compileSelector_of_reads horderly (hreads s hs) (hknown s hs)⟩

theorem compileSelectors (h : w.Sound loading)
    (hsheet : (w.catalog.block n).stylesheet = some sheet) (hr : r ∈ sheet.rules) :
    ∃ selectors written, parseList r.selector = .ok selectors ∧
      selectors.mapM (w.catalog.compileSelector n) = .ok written ∧
      Forall₂ (w.catalog.WritesSelector n) selectors written := by
  obtain ⟨selectors, hparse, hwritten⟩ := h.exists_written hsheet hr
  suffices H : ∃ written, selectors.mapM (w.catalog.compileSelector n) = .ok written ∧
      Forall₂ (w.catalog.WritesSelector n) selectors written by
    obtain ⟨written, hm, hw⟩ := H
    exact ⟨selectors, written, hparse, hm, hw⟩
  clear hparse
  induction selectors with
  | nil => exact ⟨[], rfl, .nil⟩
  | cons s selectors ih =>
    obtain ⟨x, hx, hwrites⟩ := hwritten s (by simp)
    obtain ⟨written, hm, hw⟩ := ih fun s' hs' => hwritten s' (by simp [hs'])
    refine ⟨x :: written, ?_, .cons hwrites hw⟩
    rw [mapM_cons, hx, hm]
    rfl

end Workspace.Sound

/-! ## The passes -/

namespace Job

variable {c : Job}

theorem error_debugNodes (printed : Printed) (nodes : List Node)
    (h : ∀ head ∈ nodes.filterMap BlockReader.head?, head.name = "block-debug" →
      (c.catalog.block c.block).CanDebug head) : (c.debugNodes printed nodes).error = none := by
  induction nodes generalizing printed with
  | nil => rfl
  | cons node nodes ih =>
    have hrest := fun printed => ih printed fun head hhead => h head (by
      rw [filterMap_cons]
      split
      · exact hhead
      · exact mem_cons_of_mem _ hhead)
    rw [debugNodes]
    split
    · exact hrest printed
    rename_i head hhead
    obtain ⟨hmem, hname⟩ : head ∈ (node :: nodes).filterMap BlockReader.head? ∧
        head.name = "block-debug" := by
      unfold debugHead? at hhead
      split at hhead
      · split at hhead
        · cases hhead
          exact ⟨by simp [BlockReader.head?], ‹_›⟩
        · cases hhead
      · split at hhead
        · cases hhead
          exact ⟨by simp [BlockReader.head?], ‹_›⟩
        · cases hhead
      · cases hhead
    obtain ⟨request, hparse, hknown⟩ := h head hmem hname
    obtain ⟨target, htarget⟩ : ∃ target, c.debugTarget head = .ok target := by
      unfold debugTarget
      rw [hparse]
      dsimp only
      split
      · exact ⟨_, rfl⟩
      rename_i hself
      obtain ⟨m, hm⟩ := hknown.resolve_left hself
      rw [hm]
      exact ⟨_, rfl⟩
    obtain ⟨left, hleft⟩ : ∃ left, c.runDebug printed head = .ok left := by
      unfold runDebug
      rw [htarget]
      obtain ⟨m, channel⟩ := target
      cases channel <;> exact ⟨_, rfl⟩
    rw [hleft]
    exact hrest left.2

end Job

section

variable {σ ε : Type} {f : Visit σ ε} {I : σ → Prop}

theorem error_editNodes (hI : ∀ r s, I s → I (f r s).state) {s : σ} (hs : I s) (nodes : List Node)
    (h : ∀ r ∈ rulesOf nodes, ∀ s, I s → (f r s).error = none) :
    (editNodes f s nodes).error = none ∧ I (editNodes f s nodes).state := by
  induction nodes using nodes_induct generalizing s with
  | nil => exact ⟨rfl, hs⟩
  | rule head body l ihbody ih =>
    rw [rulesOf, rulesOfNode] at h
    have hv := h ⟨head, body⟩ (by simp) s hs
    obtain ⟨h₁, hs₁⟩ := ihbody (hI ⟨head, body⟩ s hs) fun r hr => h r (by simp [hr])
    simp only [editNodes, editNode, hv, h₁]
    exact ih hs₁ fun r hr => h r (by simp [hr])
  | group head body l ihbody ih =>
    rw [rulesOf, rulesOfNode] at h
    rw [editNodes, editNode]
    split at h
    · rename_i hf
      simp only [hf, if_true]
      exact ih hs h
    rename_i hf
    obtain ⟨h₁, hs₁⟩ := ihbody hs fun r hr => h r (by simp [hr])
    simp only [hf, h₁]
    exact ih hs₁ fun r hr => h r (by simp [hr])
  | statement _ l ih | declaration _ l ih | comment _ _ l ih => exact ih hs h

end

/-- The passes before settling. -/
def Job.earlyPasses (c : Job) : List Pass :=
  [c.debugStatements, clearPass, c.settleInherited, c.compileSelectors]

theorem take_passes (c : Job) (options : Options) : (passes c options).take 4 = c.earlyPasses :=
  rfl

namespace Job

variable {c : Job}

theorem earlyPasses_ok {sheet : Stylesheet}
    (hdebug : ∀ head ∈ sheet.nodes.filterMap BlockReader.head?, head.name = "block-debug" →
      (c.catalog.block c.block).CanDebug head)
    (hrules : ∀ r ∈ sheet.rules, ∃ selectors written, parseList r.selector = .ok selectors ∧
      selectors.mapM (c.catalog.compileSelector c.block) = .ok written) :
    ∃ k, Pass.sequence c.earlyPasses { sheet := sheet } = (k, none) ∧
      Forall₂ (fun a b => a.1 = b.1 ∧ ∃ selectors compiled,
          c.CompiledTo a.2 b.2 selectors compiled)
        (placedRules false (clearNodes sheet.nodes)) (placedRules false k.sheet.nodes) := by
  have h₁ := c.error_debugNodes {} sheet.nodes hdebug
  set cleared := clearNodes (c.debugNodes {} sheet.nodes).result with hcleared
  have hleft : ∀ r ∈ rulesOf cleared, ∃ r₀ ∈ sheet.rules, r.toRuleHead = r₀.toRuleHead := by
    intro r hr
    have hr' : r ∈ rulesOf (clearNodes sheet.nodes) := by
      rwa [← map_snd_placedRules false, ← placedRules_debugNodes c false {},
        map_snd_placedRules false]
    obtain ⟨r₀, hr₀, hhead, -⟩ := exists_of_mem_clearNodes hr'
    exact ⟨r₀, hr₀, hhead⟩
  obtain ⟨h₃, hsound₃⟩ := error_editNodes (f := c.addResolutions) (I := IsSound)
    c.makes_addResolutions.isSound isSound_empty cleared
    fun r hr table ht => by
      obtain ⟨r₀, hr₀, hhead⟩ := hleft r hr
      obtain ⟨selectors, written, hparse, -⟩ := hrules r₀ hr₀
      obtain ⟨_, -, hmakes⟩ := c.makes_addResolutions r table ht
      rw [hmakes, addingEdit, readSelectors, hhead, hparse]
      rfl
  obtain ⟨-, hwalk₃⟩ := (walks_editNodes h₃).forall₂_rulesAt
    c.makes_addResolutions.isSound isSound_empty ⟨[], false⟩
  obtain ⟨h₄, -⟩ := error_editNodes (f := c.compileRule) (I := IsSound)
    c.makes_compileRule.isSound hsound₃
    (editNodes c.addResolutions .empty cleared).result fun r hr table ht => by
      -- the first walk leaves the selectors alone
      obtain ⟨site, hsite⟩ := (mem_rulesOf_iff_rulesAt _).1 hr
      obtain ⟨a, ha, -, hvisited⟩ := exists_left_of_forall₂ hwalk₃ hsite
      obtain ⟨-, -, hsame, -⟩ := injected_of_visited hvisited
      obtain ⟨r₀, hr₀, hhead⟩ := hleft a.2 ((mem_rulesOf_iff_rulesAt _).2 ⟨a.1, ha⟩)
      obtain ⟨selectors, written, hparse, hw⟩ := hrules r₀ hr₀
      rw [← hhead, ← hsame] at hparse
      obtain ⟨_, -, hmakes⟩ := c.makes_compileRule r table ht
      simp only [hmakes, compilingEdit, readSelectors, hparse, Except.mapError, hw]
  have hwalk := forall₂_placedRules
    (R := fun r r' => ∃ selectors compiled, c.CompiledTo r r' selectors compiled) (walks_ok h₃ h₄).2
  rw [hcleared, placedRules_debugNodes] at hwalk
  refine ⟨(c.compileSelectors (c.settleInherited
    (clearPass (c.debugStatements { sheet := sheet }).1).1).1).1, ?_, hwalk⟩
  rw [earlyPasses, Pass.sequence_cons_of_ok h₁, Pass.sequence_cons_of_ok rfl,
    Pass.sequence_cons_of_ok h₃, Pass.sequence_cons_of_ok h₄]
  rfl

end Job

/-- The early passes of a loaded block succeed.  Every rule that is left keeps its place, and its
selectors are compiled. -/
theorem Session.Reachable.earlyPasses_ok {s : Session} (hs : s.Reachable)
    (hsheet : (s.catalog.block n).stylesheet = some sheet) :
    ∃ k, Pass.sequence (s.catalog.job n sheet).earlyPasses { sheet := sheet } = (k, none) ∧
      Forall₂ (fun a b => a.1 = b.1 ∧ ∃ selectors written,
          (s.catalog.job n sheet).CompiledTo a.2 b.2 selectors written ∧
          Forall₂ (s.catalog.WritesSelector n) selectors written)
        (placedRules false (clearNodes sheet.nodes)) (placedRules false k.sheet.nodes) := by
  obtain ⟨k, hk, hwalk⟩ := Job.earlyPasses_ok (c := s.catalog.job n sheet)
    (hs.sound.soundAt n sheet hsheet).canDebug fun r hr => by
      obtain ⟨selectors, written, hparse, hw, -⟩ := hs.sound.compileSelectors hsheet hr
      exact ⟨selectors, written, hparse, hw⟩
  refine ⟨k, hk, forall₂_imp_of_mem hwalk ?_⟩
  rintro a b ha ⟨hplace, selectors, written, hcompiled⟩
  obtain ⟨r, hr, hhead, -⟩ := exists_of_mem_clearNodes ((mem_rulesOf_iff false).2 ⟨a.1, ha⟩)
  obtain ⟨selectors', written', hparse, hw, hwrites⟩ := hs.sound.compileSelectors hsheet hr
  rw [← hhead, hcompiled.parse] at hparse
  obtain rfl : selectors = selectors' := Except.ok.inj hparse
  obtain rfl : written = written' := Except.ok.inj (hcompiled.compile.symm.trans hw)
  exact ⟨hplace, selectors, written, hcompiled, hwrites⟩

/-- **The early passes.**  Compiling a loaded block does not fail before settling.  Every rule that is
left keeps its place, and each of its selectors is written with the classes of objects in scope.
The selectors of any loaded block can be compiled when another block's conflicts are settled. -/
theorem Session.Reachable.passes_in_scope {s : Session} (hs : s.Reachable) {n : Nat}
    {sheet : Stylesheet} (hsheet : (s.catalog.block n).stylesheet = some sheet) :
    (∃ k, Pass.sequence ((passes (s.catalog.job n sheet) s.library.options).take 4)
        { sheet := sheet } = (k, none) ∧
      List.Forall₂ (fun a b => a.1 = b.1 ∧ ∃ selectors written,
          Selector.parseList a.2.selector = .ok selectors ∧
          b.2.selector = renderSelectors written ∧
          List.Forall₂ (s.catalog.WritesSelector n) selectors written)
        (placedRules false (clearNodes sheet.nodes)) (placedRules false k.sheet.nodes)) ∧
    ∀ conditions r, (conditions, r) ∈ sheet.conditionalRules →
      ∃ selectors, Selector.parseList r.selector = .ok selectors ∧
        ∀ x ∈ selectors, ∃ written, s.catalog.compileSelector n x = .ok written := by
  refine ⟨?_, fun conditions r hr => ?_⟩
  · obtain ⟨k, hk, hwalk⟩ := hs.earlyPasses_ok hsheet
    rw [take_passes]
    refine ⟨k, hk, hwalk.imp ?_⟩
    rintro a b ⟨hplace, selectors, written, hcompiled, hwrites⟩
    exact ⟨hplace, selectors, written, hcompiled.parse, hcompiled.selector, hwrites⟩
  · obtain ⟨selectors, hparse, hwritten⟩ :=
      hs.sound.exists_written hsheet (Stylesheet.mem_rules_iff.2 ⟨_, hr⟩)
    refine ⟨selectors, hparse, fun x hx => ?_⟩
    obtain ⟨written, hw, -⟩ := hwritten x hx
    exact ⟨written, hw⟩

/-- A block with a debug statement and a global state of another block in the context of a rule. -/
def globalContext : Session :=
  .ofFiles [("base.css", ".a[state|on] \x7b block-global: true; color: red \x7d"),
    ("child.css", "@block-reference base from \"base.css\"; @block-debug base to comment; " ++
      "base.a[state|on] > .b:hover \x7b color: blue \x7d")] ["child.css"]

theorem passes_in_scope_globalContext : ∃ sheet,
    (globalContext.catalog.block 0).stylesheet = some sheet ∧
    ∃ k, Pass.sequence ((passes (globalContext.catalog.job 0 sheet)
        globalContext.library.options).take 4) { sheet := sheet } = (k, none) ∧
      List.Forall₂ (fun a b => a.1 = b.1 ∧ ∃ selectors written,
          Selector.parseList a.2.selector = .ok selectors ∧
          b.2.selector = renderSelectors written ∧
          List.Forall₂ (globalContext.catalog.WritesSelector 0) selectors written)
        (placedRules false (clearNodes sheet.nodes)) (placedRules false k.sheet.nodes) := by
  have hloaded : (globalContext.catalog.block 0).stylesheet.isSome = true := by decide +kernel
  obtain ⟨sheet, hsheet⟩ := Option.isSome_iff_exists.1 hloaded
  exact ⟨sheet, hsheet,
    (Session.Reachable.passes_in_scope (Session.reachable_ofFiles _ _) hsheet).1⟩

end StyleBlocks
