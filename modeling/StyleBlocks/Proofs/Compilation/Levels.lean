import StyleBlocks.Proofs.Compilation.TargetOrder

/-!
# The object that a resolution stops at

A resolution asks the object that it names, then the object that this one overrides, and so on,
until the rules for one of them contradict the resolving rule.

Main result: `Session.Reachable.settleRequest_nearest`.
-/

namespace StyleBlocks

/-! ## The walk -/

/-- The objects from `x` on, each with the one that it overrides behind it, up to one that overrides
nothing. -/
inductive Catalog.IsLineage (g : Catalog) : ObjectId → List ObjectId → Prop
  | last {x : ObjectId} : g.overridden? x = none → g.IsLineage x [x]
  | next {x t : ObjectId} {l : List ObjectId} :
      g.overridden? x = some t → g.IsLineage t l → g.IsLineage x (x :: l)

/-- **The walk ends**, at an object that overrides nothing. -/
theorem Workspace.Sound.isLineage {loading : List String} {w : Workspace} (h : w.Sound loading)
    {x : ObjectId} (hx : w.catalog.Holds x) : w.catalog.IsLineage x (w.catalog.lineage x) := by
  induction hlen : (w.catalog.lineage x).length using Nat.strong_induction_on generalizing x with
  | _ len ih =>
    cases ht : w.catalog.overridden? x with
    | none =>
      have hsingle : w.catalog.lineage x = [x] := by
        rw [Catalog.lineage, ht]
        rfl
      rw [hsingle]
      exact .last ht
    | some t =>
      have hlineage := h.lineage_eq_of_overridden hx.isComplete ht
      obtain ⟨hblock, hlt, -⟩ := h.overridden hx.isComplete ht
      have hshorter : (w.catalog.lineage t).length < len := by
        rw [← hlen, hlineage, List.length_cons]
        omega
      rw [hlineage]
      exact .next ht (ih _ hshorter ⟨(h.chain hx.isComplete).2 _ hblock, hlt⟩ rfl)

theorem Workspace.Sound.of_resolutionTarget {loading : List String} {w : Workspace}
    (h : w.Sound loading) {c : Job} (hc : c.catalog = w.catalog)
    (hblock : (w.catalog.block c.block).IsComplete) {q : Job.Request} {x : ObjectId}
    (hx : c.resolutionTarget q = .ok x) : w.catalog.Holds x := by
  unfold Job.resolutionTarget at hx
  split at hx
  · cases hx
  split at hx
  · cases hx
  rename_i id hid
  rw [hc] at hid
  have hholds := (h.of_named? hblock hid).1
  split at hx
  · cases hx
  · split at hx <;> cases hx
    exact hholds

/-! ## One rule for an object -/

theorem Clash.join_eq_noConflict (a b : Clash) :
    a.join b = .noConflict ↔ a = .noConflict ∧ b = .noConflict := by
  cases a <;> cases b <;> simp [Clash.join]

namespace Job

variable {c : Job} {rule : Rule} {q : Request} {selectors : List Selector}
  {own : List Declaration} {override : Bool} {m : Rival}

theorem succeeds_settleRival (rule : Rule) (q : Request) (override : Bool)
    (h : m.clash selectors own = .conflict → m.Accepts selectors) (found : Clash × List Node)
    (n : Nat) :
    Succeeds (SettleState.IsSound n) (c.settleRival rule q selectors own override found m) := by
  unfold settleRival
  rw [mergeRival_of_accepts h]
  generalize (if m.clash selectors own = .conflict then m.mergedTexts selectors else []) = texts
  dsimp only
  split
  · exact .pure _
  · refine Succeeds.bind (fun s hs => ?_) fun node => .pure _
    exact ⟨_, _, rfl, hs.table, Nat.le_succ_of_le hs.number⟩

/-! ## One object -/

section

variable (c : Job) (property : String) (selectors : List Selector) (own : List Declaration)

/-- Some rule for an object relates to the resolving rule in the given way. -/
def hasClash (clash : Clash) (target : ObjectId) : Bool :=
  (c.rivals target property).any fun m => m.clash selectors own == clash

/-- The first object with a rule that contradicts the resolving one. -/
def nearest? (targets : List ObjectId) : Option ObjectId :=
  targets.find? (c.hasClash property selectors own .conflict)

/-- No merge is rejected with a rule for the object that contradicts the resolving rule. -/
def AcceptsAt (target : ObjectId) : Prop :=
  ∀ m ∈ c.rivals target property, m.clash selectors own = .conflict → m.Accepts selectors

end

section

variable {targets : List ObjectId} {target : ObjectId} {property : String}

theorem nearest?_cons_of_pos (h : c.hasClash property selectors own .conflict target = true) :
    c.nearest? property selectors own (target :: targets) = some target :=
  List.find?_cons_of_pos h

theorem nearest?_cons_of_neg (h : c.hasClash property selectors own .conflict target = false) :
    c.nearest? property selectors own (target :: targets)
      = c.nearest? property selectors own targets :=
  List.find?_cons_of_neg (by simp [h])

theorem hasClash_eq_true {clash : Clash} :
    c.hasClash property selectors own clash target = true ↔
      ∃ m ∈ c.rivals target property, m.clash selectors own = clash := by
  rw [hasClash, List.any_eq_true]
  simp only [beq_iff_eq]

theorem contradicts_eq_hasClash (h : c.AcceptsAt q.declaration.property selectors own target) :
    c.contradicts q selectors own target
      = c.hasClash q.declaration.property selectors own .conflict target := by
  rw [Bool.eq_iff_iff, hasClash_eq_true, contradicts, beq_iff_eq, levelClash,
    foldl_join_eq_conflict]
  constructor
  · rintro (hfirst | ⟨m, hm, hverdict⟩)
    · cases hfirst
    · exact ⟨m, hm, (verdict_fst_eq (h m hm)).symm.trans hverdict⟩
  · rintro ⟨m, hm, hclash⟩
    exact .inr ⟨m, hm, (verdict_fst_eq (h m hm)).trans hclash⟩

theorem acceptsAt_of_hasClash
    (h : c.hasClash property selectors own .conflict target = false) :
    c.AcceptsAt property selectors own target := by
  intro m hm hclash
  exact absurd (hasClash_eq_true.2 ⟨m, hm, hclash⟩) (by simp [h])

theorem find?_contradicts
    (h : ∀ target, c.nearest? q.declaration.property selectors own targets = some target →
      c.AcceptsAt q.declaration.property selectors own target) :
    targets.find? (c.contradicts q selectors own)
      = c.nearest? q.declaration.property selectors own targets := by
  induction targets with
  | nil => rfl
  | cons target targets ih =>
    cases hclash : c.hasClash q.declaration.property selectors own .conflict target with
    | true =>
      have haccepts := h target (nearest?_cons_of_pos hclash)
      rw [nearest?_cons_of_pos hclash,
        List.find?_cons_of_pos ((contradicts_eq_hasClash haccepts).trans hclash)]
    | false =>
      rw [nearest?_cons_of_neg hclash] at h ⊢
      have hno := (contradicts_eq_hasClash (acceptsAt_of_hasClash hclash)).trans hclash
      rw [List.find?_cons_of_neg (by simp [hno]), ih h]

theorem foldl_join_eq_noConflict (f : Rival → Clash) (hits : List Rival) (level : Clash) :
    hits.foldl (fun level m => level.join (f m)) level = .noConflict ↔
      level = .noConflict ∧ ∀ m ∈ hits, f m = .noConflict := by
  induction hits generalizing level with
  | nil => simp
  | cons m hits ih =>
    refine (ih _).trans ?_
    rw [Clash.join_eq_noConflict, and_assoc, List.forall_mem_cons]

theorem levelClash_eq_noConflict
    (h : c.hasClash q.declaration.property selectors own .conflict target = false) :
    c.levelClash q selectors own (c.rivals target q.declaration.property) = .noConflict ↔
      c.hasClash q.declaration.property selectors own .sameValues target = false := by
  have haccepts := acceptsAt_of_hasClash h
  rw [levelClash, foldl_join_eq_noConflict, ← Bool.not_eq_true, hasClash_eq_true]
  rw [← Bool.not_eq_true, hasClash_eq_true] at h
  constructor
  · rintro ⟨-, hnone⟩ ⟨m, hm, hclash⟩
    have := (verdict_fst_eq (haccepts m hm)).symm.trans (hnone m hm)
    rw [hclash] at this
    cases this
  · intro hsame
    refine ⟨rfl, fun m hm => (verdict_fst_eq (haccepts m hm)).trans ?_⟩
    cases hclash : m.clash selectors own with
    | noConflict => rfl
    | sameValues => exact absurd ⟨m, hm, hclash⟩ hsame
    | conflict => exact absurd ⟨m, hm, hclash⟩ h

/-! ## All objects -/

/-- **The walk.**  It does not fail if no merge is rejected.  It finds a conflict if an object
contradicts the rule; otherwise it finds nothing exactly if no object has equal values. -/
theorem settleLevels_run (rule : Rule) (override : Bool) {n : Nat}
    (htargets : ∀ t ∈ targets, Succeeds (SettleState.IsSound n)
      (c.rivalsFor t q.declaration.property))
    (haccepts : ∀ target, c.nearest? q.declaration.property selectors own targets = some target →
      c.AcceptsAt q.declaration.property selectors own target)
    (found : Clash) {s : SettleState} (hs : s.IsSound n) :
    ∃ found' nodes s', (c.settleLevels rule q selectors own override found targets).run s
        = (.ok (found', nodes), s') ∧
      (c.nearest? q.declaration.property selectors own targets = none →
        (found' = .noConflict ↔ found = .noConflict ∧ ∀ t ∈ targets,
          c.hasClash q.declaration.property selectors own .sameValues t = false)) ∧
      (c.nearest? q.declaration.property selectors own targets ≠ none → found' = .conflict) := by
  induction targets generalizing found s with
  | nil => exact ⟨found, [], s, rfl, fun _ => by simp, fun h => absurd rfl h⟩
  | cons target targets ih =>
    -- the rules for the object are found, and each of them is settled
    obtain ⟨hits, s₁, hrun₁, hs₁⟩ := htargets target (by simp) s hs
    obtain ⟨rfl, -⟩ := rivalsFor_ok hs hrun₁
    have hhere : c.AcceptsAt q.declaration.property selectors own target := by
      cases hclash : c.hasClash q.declaration.property selectors own .conflict target with
      | true => exact haccepts target (nearest?_cons_of_pos hclash)
      | false => exact acceptsAt_of_hasClash hclash
    obtain ⟨⟨level, nodes⟩, s₂, hrun₂, hs₂⟩ := Succeeds.foldlM
      (fun found m hm => succeeds_settleRival (c := c) rule q override (hhere m hm) found n)
      (.noConflict, []) s₁ hs₁
    obtain ⟨rfl, -⟩ := settleLevel_ok hs₁ hrun₂
    have hconflict := contradicts_eq_hasClash hhere
    rw [settleLevels, run_bind, hrun₁]
    dsimp only
    rw [run_bind, hrun₂]
    cases hclash : c.hasClash q.declaration.property selectors own .conflict target with
    | true =>
      rw [contradicts, hclash, beq_iff_eq] at hconflict
      refine ⟨found.join .conflict, nodes, s₂, ?_, fun h => ?_, fun _ => ?_⟩
      · dsimp only
        rw [if_pos hconflict, hconflict]
        rfl
      · rw [nearest?_cons_of_pos hclash] at h
        cases h
      · cases found <;> rfl
    | false =>
      rw [contradicts, hclash, beq_eq_false_iff_ne] at hconflict
      rw [nearest?_cons_of_neg hclash] at haccepts ⊢
      obtain ⟨found', nodes', s₃, hrun₃, hnone, hsome⟩ := ih (fun t ht => htargets t (by simp [ht]))
        haccepts (found.join (c.levelClash q selectors own
          (c.rivals target q.declaration.property))) hs₂
      refine ⟨found', nodes ++ nodes', s₃, ?_, fun h => ?_, hsome⟩
      · dsimp only
        rw [if_neg hconflict, run_bind, hrun₃]
        rfl
      · rw [hnone h, Clash.join_eq_noConflict, levelClash_eq_noConflict hclash, and_assoc,
          List.forall_mem_cons]

end

end Job

def Rule.settingsOf (rule : Rule) (property : String) : List Declaration :=
  rule.declarations.filter fun d => decide (d.property = property) && !d.asksResolution

/-- **A resolution stops at the nearest conflict.**  In every state of a session, for a resolution
of a rule of a loaded block that stands before or behind the rule's own values and names an object:
the walk goes over that object and all that it overrides, and ends.  Looking for the rules for each
of these objects succeeds; what it finds has the values of a rule that styles the object.  Where no
merge is rejected, all that is emitted comes from the first object with a rule that contradicts the
resolving one, at most one rule for each rule of that object and in the order of these.  If there is
no such object nothing is emitted, and that is an error exactly if the resolution is explicit and no
rule for an object has even equal values. -/
theorem Session.Reachable.settleRequest_nearest {s : Session} (hs : s.Reachable) {c : Job}
    (hc : c.catalog = s.catalog) (hblock : (s.catalog.block c.block).IsComplete) {rule : Rule}
    {selectors : List Selector} {q : Job.Request} {override : Bool} {other : ObjectId}
    {p : String} {own : List Declaration} (hp : q.declaration.property = p)
    (hown : rule.settingsOf p = own)
    (hoverride : c.isOverride q (Job.ownValues rule p) = .ok override)
    (hother : c.resolutionTarget q = .ok other) {state : SettleState} (hstate : state.table.IsSound)
    (haccepts : ∀ t, c.nearest? p selectors own (c.catalog.lineage other) = some t →
      c.AcceptsAt p selectors own t) :
    c.catalog.IsLineage other (c.catalog.lineage other) ∧
    (∀ t ∈ c.catalog.lineage other,
      ((c.rivalsFor t p).run state).1 = .ok (c.rivals t p) ∧
      ∀ m ∈ c.rivals t p, ∃ sheet, (c.catalog.block t.block).stylesheet = some sheet ∧
        ∃ r ∈ sheet.conditionalRules, m.values = Job.valuesFor r.2 p ∧
          (t, m.selector.key.pseudoName?) ∈ (c.catalog.block t.block).keysOf r.2) ∧
    (∀ t, c.nearest? p selectors own (c.catalog.lineage other) = some t →
      ∃ nodes state', (c.settleRequest rule selectors q).run state = (.ok nodes, state') ∧
        List.Forall₂ (Emission.IsNode state.nextRule)
          ((c.rivals t p).filterMap (·.answer? selectors own override)) nodes) ∧
    (c.nearest? p selectors own (c.catalog.lineage other) = none →
      ((c.settleRequest rule selectors q).run state).1
        = if q.resolution.inherited = false ∧ ∀ t ∈ c.catalog.lineage other,
            c.hasClash p selectors own .sameValues t = false then
          .error (c.errorIn (.resolveNothing p q.resolution.reference) q.declaration.location)
        else .ok []) := by
  subst hp
  have hholds := hs.sound.of_resolutionTarget hc hblock hother
  have hsheets : ∀ t ∈ c.catalog.lineage other, ∃ sheet,
      (s.catalog.block t.block).stylesheet = some sheet := by
    intro t ht
    rw [hc] at ht
    exact Option.isSome_iff_exists.1 (hs.sound.of_mem_lineage hholds ht).1.isComplete
  have hstate' : state.IsSound state.nextRule := ⟨hstate, Nat.le_refl _⟩
  have hrivals : ∀ t ∈ c.catalog.lineage other, Succeeds (SettleState.IsSound state.nextRule)
      (c.rivalsFor t q.declaration.property) := by
    intro t ht
    obtain ⟨sheet, hsheet⟩ := hsheets t ht
    exact Job.succeeds_rivalsFor hs.sound hc hsheet _
  obtain ⟨found, nodes, state', hwalk, hnone, hsome⟩ :=
    Job.settleLevels_run rule override hrivals haccepts .noConflict hstate'
  have hnodes := (Job.settleLevels_ok hstate' hwalk).1
  rw [Job.emissionsAlong_eq, Job.find?_contradicts haccepts] at hnodes
  -- the run of the resolution is that of the walk, with the check of what it has found
  have hrun : (c.settleRequest rule selectors q).run state
      = if found = .noConflict && !q.resolution.inherited then
          (.error (c.errorIn (.resolveNothing q.declaration.property q.resolution.reference)
            q.declaration.location), state')
        else (.ok nodes, state') := by
    have hvalues : (Job.ownValues rule q.declaration.property).map Prod.snd = own :=
      (Job.map_snd_ownValues rule _).trans hown
    simp only [Job.settleRequest, hoverride, hother, hvalues]
    rw [run_bind, hwalk]
    dsimp only
    split <;> rfl
  refine ⟨hc ▸ hs.sound.isLineage hholds, fun t ht => ⟨?_, fun m hm => ?_⟩, fun t ht => ?_,
    fun h => ?_⟩
  · obtain ⟨hits, state₁, hrun₁, -⟩ := hrivals t ht state hstate'
    rw [hrun₁, (Job.rivalsFor_ok hstate' hrun₁).1]
  · obtain ⟨sheet, hsheet⟩ := hsheets t ht
    rw [Job.rivals, hc, hsheet] at hm
    obtain ⟨r, hr, hm⟩ := List.mem_flatMap.1 hm
    have hkey := (Job.exists_mem_rivalsIn_iff hs.sound hc hsheet
      (Stylesheet.mem_rules_iff.2 ⟨r.1, hr⟩)).1 ⟨m, hm, rfl⟩
    exact ⟨sheet, hc ▸ hsheet, r, hr, (Job.of_mem_rivalsIn hm).1, hc ▸ hkey.1⟩
  · have hfound : found = .conflict := hsome (by simp [ht])
    refine ⟨nodes, state', by rw [hrun, hfound]; rfl, ?_⟩
    rw [ht, Option.toList_some, List.flatMap_singleton] at hnodes
    have hanswers : (c.rivals t q.declaration.property).filterMap
        (c.emission? q selectors own override) = (c.rivals t q.declaration.property).filterMap
          (·.answer? selectors own override) :=
      List.filterMap_congr fun m hm => Job.emission?_eq_answer? (haccepts t ht m hm)
    rwa [← hanswers]
  · rw [h] at hnodes
    obtain rfl : nodes = [] := List.forall₂_nil_left_iff.1 hnodes
    have hcheck : (found = .noConflict && !q.resolution.inherited) = true ↔
        q.resolution.inherited = false ∧ ∀ t ∈ c.catalog.lineage other,
          c.hasClash q.declaration.property selectors own .sameValues t = false := by
      rw [Bool.and_eq_true, decide_eq_true_eq, hnone h, Bool.not_eq_true', and_comm]
      simp
    rw [hrun, apply_ite Prod.fst]
    exact if_congr hcheck rfl rfl

/-- A class that overrides another one; its own rule is for a pseudo-element. -/
def quietOverride : Session :=
  .ofFiles [("base.css", ".x \x7b color: red \x7d .x \x7b color: green \x7d"),
    ("mid.css", "@block-reference base from \"base.css\"; :scope \x7b extends: base \x7d " ++
      ".x::before \x7b color: pink \x7d"),
    ("main.css", "@block-reference mid from \"mid.css\"; .y \x7b color: blue \x7d")] ["main.css"]

/-- A rule of the main block that resolves a conflict with that class. -/
def quietResolution : Rule :=
  ⟨⟨0, ".main__y", .nowhere⟩, [.declaration ⟨"color", "blue", false, .nowhere⟩,
    .declaration ⟨"color", "resolve(\"mid.x\")", false, .nowhere⟩]⟩

/-- The resolution of that rule. -/
def quietRequest : Job.Request :=
  ⟨1, ⟨"color", "resolve(\"mid.x\")", false, .nowhere⟩, ⟨false, "mid.x"⟩⟩

theorem quietOverride_facts :
    let c : Job := ⟨quietOverride.catalog, 0, none⟩
    let selectors := [Job.classSelector "main__y"]
    let own : List Declaration := [⟨"color", "blue", false, .nowhere⟩]
    ((c.catalog.block 0).stylesheet.isSome && c.catalog.lineage ⟨1, 1⟩ == [⟨1, 1⟩, ⟨2, 1⟩] &&
      (c.resolutionTarget quietRequest).toOption == some ⟨1, 1⟩ &&
      c.nearest? "color" selectors own [⟨1, 1⟩, ⟨2, 1⟩] == some ⟨2, 1⟩ &&
      (c.rivals ⟨2, 1⟩ "color").all fun m => (m.comparable selectors).all fun s =>
        (mergeSelectors s m.selector).toOption.isSome) = true := by
  decide +kernel

theorem settleRequest_nearest_quietOverride :
    let c : Job := ⟨quietOverride.catalog, 0, none⟩
    let selectors := [Job.classSelector "main__y"]
    let own : List Declaration := [⟨"color", "blue", false, .nowhere⟩]
    c.catalog.IsLineage ⟨1, 1⟩ [⟨1, 1⟩, ⟨2, 1⟩] ∧
    c.nearest? "color" selectors own [⟨1, 1⟩, ⟨2, 1⟩] = some ⟨2, 1⟩ ∧
    ∃ nodes state', (c.settleRequest quietResolution selectors quietRequest).run ⟨.empty, 0⟩
        = (.ok nodes, state') ∧
      List.Forall₂ (Emission.IsNode 0)
        ((c.rivals ⟨2, 1⟩ "color").filterMap (·.answer? selectors own true)) nodes := by
  intro c selectors own
  have hfacts := quietOverride_facts
  simp only [Bool.and_eq_true, beq_iff_eq] at hfacts
  obtain ⟨⟨⟨⟨hcomplete, hlineage⟩, hother⟩, hnearest⟩, hmerges⟩ := hfacts
  have haccepts : ∀ t, c.nearest? "color" selectors own (c.catalog.lineage ⟨1, 1⟩) = some t →
      c.AcceptsAt "color" selectors own t := by
    intro t ht m hm _ s hs
    rw [hlineage, hnearest] at ht
    obtain rfl := Option.some.inj ht
    obtain ⟨merged, hmerged⟩ := Option.isSome_iff_exists.1
      (List.all_eq_true.1 (List.all_eq_true.1 hmerges m hm) s hs)
    exact ⟨merged, except_toOption_some hmerged⟩
  have hown : quietResolution.settingsOf "color" = own := by decide +kernel
  have hoverride :
      c.isOverride quietRequest (Job.ownValues quietResolution "color") = .ok true := by
    decide +kernel
  have hstate : (⟨.empty, 0⟩ : SettleState).table.IsSound := SelectorTable.isSound_empty
  obtain ⟨hwalk, -, hfound, -⟩ := Session.Reachable.settleRequest_nearest
    (s := quietOverride) (c := c) (Session.reachable_ofFiles _ _) rfl hcomplete rfl hown hoverride
    (except_toOption_some hother) hstate haccepts
  rw [hlineage] at hwalk hfound
  exact ⟨hwalk, hnearest, hfound _ hnearest⟩

end StyleBlocks
