import StyleBlocks.Proofs.Compilation.References
import StyleBlocks.Proofs.Stylesheet.Changes

/-!
# Compilation only inserts

Once the block language is taken out, the passes of a compilation rewrite selectors, put resolutions
into rules and take resolutions out, and put new rules behind old ones.  Nothing else happens to the
stylesheet.

Main result: `Session.compile_only_inserts`.
-/

namespace StyleBlocks

namespace Job

variable {c : Job} {n : Nat}

def IsInherited (c : Job) (d : Declaration) : Prop :=
  ∃ t, d.value = c.resolutionTo t

/-- The second head has the selectors of the first one, written with output classes. -/
def Compiles (c : Job) (head head' : RuleHead) : Prop :=
  ∃ selectors compiled, Selector.parseList head.selector = .ok selectors ∧
    selectors.mapM (c.catalog.compileSelector c.block) = .ok compiled ∧
    head' = { head with selector := renderSelectors compiled }

/-- A rule with a number from `n` on that has only declarations in it, inside at-rules. -/
def IsNewRule (n : Nat) (node : Node) : Prop :=
  ∃ conditions head, ∃ ds : List Declaration,
    n ≤ head.id ∧ node = wrapIn conditions (.rule head (ds.map .declaration))

/-- What the passes after clearing may do: compile selectors, add inherited resolutions, take
resolutions out, and put new rules behind old ones. -/
def changes (c : Job) (n : Nat) : Changes where
  head := c.Compiles
  adds := c.IsInherited
  drops d := d.asksResolution = true
  inserts := IsNewRule n

/-! ## The walks -/

/-- The first walk: heads stay, and inherited resolutions are added. -/
def addingChanges (c : Job) : Changes where
  head := Eq
  adds := c.IsInherited
  drops _ := False
  inserts _ := False

theorem isChange_addResolutions (c : Job) :
    Visit.IsChange c.addResolutions SelectorTable.IsSound c.addingChanges := by
  refine ⟨c.makes_addResolutions.isSound, fun r s => ?_, fun r s => ?_, fun r s _ _ => ?_,
    fun r s d hd => ?_⟩
  all_goals unfold addResolutions at *
  · split <;> rfl
  · split <;> rfl
  · split <;> rfl
  split at hd
  · cases hd
  · obtain ⟨_, -, _, t, -, -, hvalue⟩ := mem_injectionsFor hd
    exact ⟨t, hvalue⟩

/-- The second walk: selectors are compiled. -/
def compilingChanges (c : Job) : Changes where
  head := c.Compiles
  adds _ := False
  drops _ := False
  inserts _ := False

theorem isChange_compileRule (c : Job) :
    Visit.IsChange c.compileRule SelectorTable.IsSound c.compilingChanges := by
  refine ⟨c.makes_compileRule.isSound, fun r s => ?_, fun r s => ?_, ?_,
    fun r s d hd => ?_⟩
  · unfold compileRule
    dsimp only
    split
    · rfl
    · split <;> rfl
  · unfold compileRule
    dsimp only
    split
    · rfl
    · split <;> rfl
  · intro r table ht herror
    obtain ⟨selectors, compiled, hparse, hm, hedit⟩ := compileRule_ok ht herror
    rw [hedit]
    exact ⟨selectors, compiled, hparse, hm, rfl⟩
  · unfold compileRule at hd
    dsimp only at hd
    split at hd
    · cases hd
    · split at hd <;> cases hd

/-! ## Settling -/

/-- Settling: heads stay, resolutions are taken out, and new rules are put behind old ones. -/
def settlingChanges (n : Nat) : Changes where
  head := Eq
  adds _ := False
  drops d := d.asksResolution = true
  inserts := IsNewRule n

theorem relates_filter_isConcrete (n : Nat) (body : List Node) :
    (settlingChanges n).Relates true body (body.filter isConcrete) := by
  induction body with
  | nil => exact .nil
  | cons node body ih =>
    cases hc : isConcrete node with
    | true =>
      rw [List.filter_cons_of_pos hc]
      exact (Changes.Relates.refl (fun _ => rfl) true [node]).append ih
    | false =>
      rw [List.filter_cons_of_neg (by simp [hc])]
      cases node with
      | declaration d =>
        have hd : d.asksResolution = true := by simpa [isConcrete] using hc
        exact .drop hd ih
      | _ => cases hc

theorem isNewRule_of_isNode {e : Emission} {node : Node} (h : e.IsNode n node) :
    IsNewRule n node := by
  obtain ⟨number, place, settled, hn, rfl⟩ := h
  refine ⟨e.conditions, ⟨number, ",\n".intercalate e.texts, place⟩,
    e.values.map fun d => { d with location := settled }, hn, ?_⟩
  rw [List.map_map]
  rfl

/-- **Settling** takes resolutions out of rules and puts new rules behind old ones. -/
theorem relates_settleNodes {s : SettleState} (hs : s.IsSound n) (nodes : List Node)
    (h : (c.settleNodes s nodes).error = none) : (c.settleNodes s nodes).state.IsSound n ∧
      (settlingChanges n).Relates false nodes (c.settleNodes s nodes).result := by
  induction nodes using nodes_induct generalizing s with
  | nil => exact ⟨hs, .nil⟩
  | rule head body l _ ih =>
    rw [settleNodes, settleNode] at h ⊢
    rcases hrun : (c.settleRule ⟨head, body⟩).run s with ⟨e | nodes, s'⟩ <;> rw [hrun] at h
    · cases h
    obtain ⟨hnodes, hs'⟩ := settleRule_ok hs hrun
    obtain ⟨hl', hl⟩ := ih hs' h
    refine ⟨hl', .rule rfl (fun node hnode => ?_) (relates_filter_isConcrete n body) hl⟩
    obtain ⟨e, -, he⟩ := exists_left_of_forall₂ hnodes (List.mem_reverse.1 hnode)
    exact isNewRule_of_isNode he
  | group head body l ihbody ih =>
    rw [settleNodes, settleNode] at h ⊢
    cases hf : head.holdsFrames with
    | true =>
      simp only [hf, if_true] at h ⊢
      exact ⟨(ih hs h).1, .leaf hf (ih hs h).2⟩
    | false =>
      simp only [hf, Bool.false_eq_true, if_false] at h ⊢
      cases hb : (c.settleNodes s body).error with
      | some e => simp [hb] at h
      | none =>
        simp only [hb] at h ⊢
        obtain ⟨hs₁, hbody⟩ := ihbody hs hb
        exact ⟨(ih hs₁ h).1, .group hf hbody (ih hs₁ h).2⟩
  | statement _ l ih | declaration _ l ih | comment _ _ l ih =>
    exact ⟨(ih hs h).1, .leaf rfl (ih hs h).2⟩

end Job

/-! ## Compilation -/

/-- **Compilation only inserts.**  Let the block language be taken out of a loaded block's
stylesheet.  If the block is compiled with success and without an `:export` rule, the outcome is what
was left with the selectors of all style rules compiled, with no declarations added to rules or taken
out of them but resolutions, and with new rules directly behind old ones.  New rules have new
numbers; all other nodes are those that were there, in their order. -/
theorem Session.compile_only_inserts {s : Session} {n : Nat} {sheet out : Stylesheet}
    (hsheet : (s.catalog.block n).stylesheet = some sheet)
    (hplain : s.library.options.interoperable = false) (hout : (s.compile n).1 = .ok out) :
    ∃ k, Pass.sequence ((passes (s.catalog.job n sheet) s.library.options).take 2)
        { sheet := sheet } = (k, none) ∧
      ((s.catalog.job n sheet).changes k.sheet.nextRule).Relates false k.sheet.nodes out.nodes ∧
      k.sheet.nextRule ≤ out.nextRule ∧ out.filename = k.sheet.filename := by
  obtain ⟨k, hk, rfl⟩ := Session.exists_of_compile hsheet hout
  set c := s.catalog.job n sheet with hc
  change Pass.sequence (passes c s.library.options) { sheet := sheet } = (k, none) at hk
  unfold passes at hk ⊢
  rw [hplain] at hk
  obtain ⟨h₁, hk⟩ := Pass.sequence_cons_ok hk
  obtain ⟨h₂, hk⟩ := Pass.sequence_cons_ok hk
  obtain ⟨h₃, hk⟩ := Pass.sequence_cons_ok hk
  obtain ⟨h₄, hk⟩ := Pass.sequence_cons_ok hk
  obtain ⟨h₅, hk⟩ := Pass.sequence_cons_ok hk
  cases hk
  set nodes := clearNodes (c.debugNodes {} sheet.nodes).result with hnodes
  obtain ⟨hs₃, hr₃⟩ := relates_editNodes (Job.isChange_addResolutions c) false
    SelectorTable.isSound_empty nodes h₃
  obtain ⟨hs₄, hr₄⟩ := relates_editNodes (Job.isChange_compileRule c) false hs₃ _ h₄
  obtain ⟨hs₅, hr₅⟩ := Job.relates_settleNodes (n := sheet.nextRule) (s := ⟨_, sheet.nextRule⟩)
    ⟨hs₄, Nat.le_refl _⟩ _ h₅
  refine ⟨(clearPass (c.debugStatements { sheet := sheet }).1).1, ?_, ?_, hs₅.number, rfl⟩
  · show Pass.sequence [c.debugStatements, clearPass] _ = _
    rw [Pass.sequence_cons_of_ok h₁, Pass.sequence_cons_of_ok h₂]
    rfl
  · -- the walks put no nodes behind rules, and nothing adds declarations after the first of them
    have hwalks := hr₃.comp (fun _ h => h) (fun _ h => h) hr₄
    refine (hwalks.comp (fun _ h => h) (fun _ h => h) hr₅).mono ?_ (fun _ h => h) ?_ (fun _ h => h)
    · rintro head head' ⟨_, ⟨_, rfl, hcompiles⟩, rfl⟩
      exact hcompiles
    · rintro d ((h | h) | h)
      · exact h.elim
      · exact h.elim
      · exact h

/-- A block that overrides a class inside an at-rule, with frames and a comment behind it. -/
def conditionalOverride : Session :=
  .ofFiles [("base.css", "@media print \x7b .x \x7b color: red \x7d \x7d"),
    ("child.css", "@block-reference base from \"base.css\"; :scope \x7b extends: base \x7d " ++
      "@media screen \x7b .x \x7b color: blue \x7d /* x */ \x7d " ++
      "@keyframes move \x7b from \x7b top: 0 \x7d \x7d")] ["child.css"]

theorem compile_only_inserts_conditionalOverride : ∃ sheet out,
    (conditionalOverride.catalog.block 0).stylesheet = some sheet ∧
    conditionalOverride.library.options.interoperable = false ∧
    (conditionalOverride.compile 0).1 = .ok out ∧ sheet.nextRule < out.nextRule ∧
    ∃ k, Pass.sequence ((passes (conditionalOverride.catalog.job 0 sheet)
        conditionalOverride.library.options).take 2) { sheet := sheet } = (k, none) ∧
      ((conditionalOverride.catalog.job 0 sheet).changes k.sheet.nextRule).Relates false
        k.sheet.nodes out.nodes ∧
      k.sheet.nextRule ≤ out.nextRule ∧ out.filename = k.sheet.filename := by
  have hplain : conditionalOverride.library.options.interoperable = false := by decide +kernel
  have hcompiled : (conditionalOverride.compile 0).1.toOption.any (fun out =>
      (conditionalOverride.catalog.block 0).stylesheet.any fun sheet =>
        sheet.nextRule < out.nextRule) = true := by decide +kernel
  obtain ⟨sheet, out, hsheet, hout, hnext⟩ := Session.exists_of_compile_any hcompiled
  rw [hsheet] at hnext
  exact ⟨sheet, out, hsheet, hplain, hout, by simpa using hnext,
    Session.compile_only_inserts hsheet hplain hout⟩

end StyleBlocks
