import StyleBlocks.Proofs.Compilation.Overrides

/-!
# The order of emitted rules

A resolution makes a rule emit rules that are made from those of another block.  They are collected
in the order of the rules that they are made from, and put behind the rule one by one, each directly
behind it.  So the last one comes first.

Main result: `compile_reverses_targets`.
-/

namespace StyleBlocks

open List

/-- Something that a rule emits: for which of its resolutions, and from which rule of the other
block, by the place of that rule in its stylesheet. -/
structure Trace where
  request : Job.Request
  place : Nat
  emission : Emission

namespace Job

/-! ## Traces -/

/-- What the rules for one object make a rule emit. -/
def tracesAt (c : Job) (q : Request) (selectors : List Selector) (own : List Declaration)
    (override : Bool) (target : ObjectId) : List Trace :=
  match (c.catalog.block target.block).stylesheet with
  | none => []
  | some sheet => sheet.conditionalRules.zipIdx.flatMap fun r =>
    ((c.rivalsIn target q.declaration.property r.1).filterMap
      (c.emission? q selectors own override)).map fun e => ⟨q, r.2, e⟩

/-- What one resolution makes a rule emit. -/
def tracesFor (c : Job) (rule : Rule) (selectors : List Selector) (q : Request) : List Trace :=
  let own := ownValues rule q.declaration.property
  match c.isOverride q own, c.resolutionTarget q with
  | .ok override, .ok target =>
    ((c.catalog.lineage target).find? (c.contradicts q selectors (own.map Prod.snd))).toList.flatMap
      (c.tracesAt q selectors (own.map Prod.snd) override)
  | _, _ => []

def traces (c : Job) (rule : Rule) : List Trace :=
  match c.requests rule, Selector.parseList rule.selector with
  | .ok requests, .ok selectors => requests.flatMap (c.tracesFor rule selectors)
  | _, _ => []

section

variable {c : Job} {rule : Rule} {q : Request} {selectors : List Selector} {own : List Declaration}
  {override : Bool} {target : ObjectId} {t : Trace}

theorem map_emission_tracesAt :
    (c.tracesAt q selectors own override target).map Trace.emission =
      (c.rivals target q.declaration.property).filterMap
        (c.emission? q selectors own override) := by
  unfold tracesAt rivals
  cases (c.catalog.block target.block).stylesheet with
  | none => rfl
  | some sheet =>
    dsimp only
    conv_rhs => rw [← zipIdx_map_fst 0 sheet.conditionalRules, flatMap_map, filterMap_flatMap]
    rw [map_flatMap]
    refine flatMap_congr fun r _ => ?_
    rw [map_map]
    exact map_id' _

theorem map_emission_tracesFor :
    (c.tracesFor rule selectors q).map Trace.emission = c.emissionsFor rule selectors q := by
  unfold tracesFor emissionsFor
  dsimp only
  rcases c.isOverride q (ownValues rule q.declaration.property) with _ | override
  · rfl
  rcases c.resolutionTarget q with _ | target
  · rfl
  · dsimp only
    rw [emissionsAlong_eq, map_flatMap]
    exact flatMap_congr fun target _ => map_emission_tracesAt

theorem map_emission_traces : (c.traces rule).map Trace.emission = c.emissionsOf rule := by
  unfold traces emissionsOf
  rcases c.requests rule with _ | requests
  · rfl
  rcases Selector.parseList rule.selector with _ | selectors
  · rfl
  · rw [map_flatMap]
    exact flatMap_congr fun q _ => map_emission_tracesFor

theorem pairwise_zipIdx {α : Type} (l : List α) : l.zipIdx.Pairwise fun a b => a.2 < b.2 := by
  have hplaces : (l.zipIdx.map Prod.snd).Pairwise (· < ·) := by
    rw [zipIdx_map_snd]
    exact pairwise_lt_range'
  exact pairwise_map.1 hplaces

theorem pairwise_tracesAt :
    (c.tracesAt q selectors own override target).Pairwise fun t t' => t.place ≤ t'.place := by
  unfold tracesAt
  split
  · exact .nil
  refine pairwise_flatMap.2 ⟨fun r _ => ?_, ?_⟩
  · exact pairwise_map.2 (pairwise_of_forall fun _ _ => Nat.le_refl r.2)
  refine (pairwise_zipIdx _).imp fun hlt t ht t' ht' => ?_
  obtain ⟨-, -, rfl⟩ := mem_map.1 ht
  obtain ⟨-, -, rfl⟩ := mem_map.1 ht'
  exact Nat.le_of_lt hlt

theorem pairwise_tracesFor :
    (c.tracesFor rule selectors q).Pairwise fun t t' => t.place ≤ t'.place := by
  unfold tracesFor
  dsimp only
  split
  · rename_i target _ _
    cases (c.catalog.lineage target).find? (c.contradicts q selectors _) with
    | none => exact .nil
    | some target =>
      rw [Option.toList_some, flatMap_singleton]
      exact pairwise_tracesAt
  · exact .nil

/-- What is traced is made from the rule `r`: a resolution of `rule` asks an object for which `r` is
a rule, and which stands in the place that is told, in the stylesheet of the other block. -/
def MadeFrom (c : Job) (rule : Rule) (selectors : List Selector) (t : Trace)
    (r : List AtHead × Rule) : Prop :=
  ∃ override first,
    c.isOverride t.request (ownValues rule t.request.declaration.property) = .ok override ∧
    c.resolutionTarget t.request = .ok first ∧ ∃ target ∈ c.catalog.lineage first, ∃ sheet,
      (c.catalog.block target.block).stylesheet = some sheet ∧
      sheet.conditionalRules[t.place]? = some r ∧
      ∃ m ∈ c.rivalsIn target t.request.declaration.property r, c.emission? t.request selectors
        ((ownValues rule t.request.declaration.property).map Prod.snd) override m = some t.emission

theorem of_mem_tracesAt (h : t ∈ c.tracesAt q selectors own override target) :
    t.request = q ∧ ∃ sheet r, (c.catalog.block target.block).stylesheet = some sheet ∧
      sheet.conditionalRules[t.place]? = some r ∧
      ∃ m ∈ c.rivalsIn target q.declaration.property r,
        c.emission? q selectors own override m = some t.emission := by
  unfold tracesAt at h
  split at h
  · cases h
  rename_i sheet hsheet
  obtain ⟨r, hr, h⟩ := mem_flatMap.1 h
  obtain ⟨e, he, rfl⟩ := mem_map.1 h
  obtain ⟨m, hm, he⟩ := mem_filterMap.1 he
  exact ⟨rfl, sheet, r.1, hsheet, mem_zipIdx_iff_getElem?.1 hr, m, hm, he⟩

theorem of_mem_tracesFor (h : t ∈ c.tracesFor rule selectors q) :
    t.request = q ∧ ∃ r, c.MadeFrom rule selectors t r := by
  unfold tracesFor at h
  dsimp only at h
  split at h
  · rename_i override first hoverride hfirst
    obtain ⟨target, htarget, h⟩ := mem_flatMap.1 h
    have hlineage := mem_of_find?_eq_some (Option.mem_toList.1 htarget)
    obtain ⟨rfl, sheet, r, hsheet, hr, hm⟩ := of_mem_tracesAt h
    exact ⟨rfl, r, override, first, hoverride, hfirst, target, hlineage, sheet, hsheet, hr, hm⟩
  · cases h

/-- **What something emitted is made from.** -/
theorem exists_madeFrom (h : t ∈ c.traces rule) : ∃ selectors r,
    Selector.parseList rule.selector = .ok selectors ∧ c.MadeFrom rule selectors t r := by
  unfold traces at h
  split at h
  · rename_i requests selectors _ hselectors
    obtain ⟨q, -, h⟩ := mem_flatMap.1 h
    obtain ⟨-, r, hr⟩ := of_mem_tracesFor h
    exact ⟨selectors, r, hselectors, hr⟩
  · cases h

theorem parse_of_requests_ok {requests : List Request} (h : c.requests rule = .ok requests)
    {d : Declaration} (hd : d ∈ rule.declarations) : ∃ o, Resolution.parse d.value = .ok o := by
  obtain ⟨found, hfound, -⟩ := except_bind_ok h
  obtain ⟨node, hnode, hdeclaration⟩ := mem_filterMap.1 hd
  obtain rfl : node = .declaration d := by
    cases node with
    | declaration d' => exact congrArg _ (Option.some.inj hdeclaration)
    | _ => cases hdeclaration
  obtain ⟨i, hi⟩ := mem_iff_getElem?.1 hnode
  obtain ⟨o, -, ho⟩ := exists_right_of_forall₂ (mapM_eq_ok_iff.1 hfound)
    (mem_zipIdx_iff_getElem?.2 hi : (Node.declaration d, i) ∈ rule.body.zipIdx)
  dsimp only at ho
  split at ho
  · exact ⟨_, by assumption⟩
  · exact ⟨_, by assumption⟩
  · cases ho

theorem nodup_requests {requests : List Request} (h : c.requests rule = .ok requests) :
    requests.Nodup := by
  obtain rfl : rule.body.zipIdx.filterMap request? = requests :=
    Except.ok.inj ((requests_eq fun d hd => parse_of_requests_ok h hd).symm.trans h)
  refine pairwise_filterMap.2 ((pairwise_zipIdx _).imp fun hlt q hq q' hq' heq => ?_)
  rw [(request?_eq_some.1 hq).1, (request?_eq_some.1 hq').1, heq] at hlt
  exact Nat.lt_irrefl _ hlt

theorem pairwise_traces : (c.traces rule).Pairwise fun t t' =>
    t.request = t'.request → t.place ≤ t'.place := by
  unfold traces
  split
  · rename_i requests selectors hrequests _
    refine pairwise_flatMap.2 ⟨fun q _ => ?_, ?_⟩
    · refine List.Pairwise.imp ?_ pairwise_tracesFor
      exact fun hle _ => hle
    · refine (nodup_requests hrequests).imp fun hne t ht t' ht' heq => ?_
      rw [(of_mem_tracesFor ht).1, (of_mem_tracesFor ht').1] at heq
      exact absurd heq hne
  · exact .nil

/-! ## The output -/

/-- What stands in the output for a rule that stands in no other one: the rule without its
resolutions, and behind it what it emits, the last of it first. -/
def LeavesBehind (c : Job) (rule : Rule) (l : List Rule) : Prop :=
  ∃ emitted, List.Forall₂ (fun t r => t.emission.IsRule r) (c.traces rule).reverse emitted ∧
    l = ⟨rule.toRuleHead, rule.body.filter isConcrete⟩ :: emitted

theorem SettledTo.leavesBehind {l : List Rule} (h : c.SettledTo rule l) :
    c.LeavesBehind rule l := by
  obtain ⟨emitted, hemitted, rfl⟩ := h
  rw [← map_emission_traces, forall₂_map_left_iff] at hemitted
  exact ⟨emitted.reverse, forall₂_reverse_iff.2 hemitted, rfl⟩

/-- From which rules of the other block, by their places there, the rules behind `rule` are made
that one of its resolutions asks for, in the order of the output. -/
def placesBehind (c : Job) (rule : Rule) (q : Request) : List Nat :=
  ((c.traces rule).reverse.filter (·.request = q)).map Trace.place

theorem pairwise_placesBehind : (c.placesBehind rule q).Pairwise (· ≥ ·) := by
  unfold placesBehind
  rw [pairwise_map, pairwise_filter, pairwise_reverse]
  refine pairwise_traces.imp fun hle ht ht' => hle ?_
  rw [decide_eq_true_eq] at ht ht'
  rw [ht, ht']

theorem pairwise_placesBehind_iff : (c.placesBehind rule q).Pairwise (· ≤ ·) ↔
    ∀ i ∈ c.placesBehind rule q, ∀ j ∈ c.placesBehind rule q, i = j := by
  constructor
  · intro hle
    have heq : (c.placesBehind rule q).Pairwise (· = ·) :=
      (hle.and pairwise_placesBehind).imp fun h => Nat.le_antisymm h.1 h.2
    exact fun i hi j hj => heq.forall_of_forall (fun _ _ => rfl) hi hj
  · intro heq
    exact pairwise_placesBehind.imp_of_mem fun hi hj _ => Nat.le_of_eq (heq _ hi _ hj)

end

end Job

theorem forall₂_outerRules {R : Rule → Rule → Prop} {nodes nodes' : List Node}
    (h : Forall₂ (fun a b => a.1 = b.1 ∧ R a.2 b.2) (placedRules false nodes)
      (placedRules false nodes')) : Forall₂ R (outerRules nodes) (outerRules nodes') := by
  rw [outerRules, outerRules, forall₂_map_left_iff, forall₂_map_right_iff]
  refine (rel_filter (fun a b hab => ?_) h).imp fun a b hab => hab.2
  show (!a.1) = true ↔ (!b.1) = true
  rw [hab.1]

/-- **Emitted rules stand in reverse order.**  In a compiled stylesheet every rule that stands in no
other one has its selector written with output classes, and what its resolutions make it emit stands
behind it.  Those of the emitted rules that one resolution asks for are in the reverse order of the
rules of the other block that they are made from.  So they keep the order of the other block if and
only if they are all made from one rule. -/
theorem compile_reverses_targets {s : Session} {n : Nat} {sheet out : Stylesheet}
    (hsheet : (s.catalog.block n).stylesheet = some sheet) (hout : (s.compile n).1 = .ok out) :
    ∃ (rules : List Rule) (lists : List (List Rule)) (number : Nat),
      List.Forall₂ (fun r r' => ∃ selectors compiled,
        (s.catalog.job n sheet).CompiledTo r r' selectors compiled)
        (outerRules (clearNodes sheet.nodes)) rules ∧
      List.Forall₂ (s.catalog.job n sheet).LeavesBehind rules lists ∧
      outerRules out.nodes = lists.flatten ++
        outerRules (exportNodes (s.catalog.job n sheet) s.library.options number) ∧
      ∀ rule ∈ rules,
        (∀ t ∈ (s.catalog.job n sheet).traces rule, ∃ selectors r,
          Selector.parseList rule.selector = .ok selectors ∧
            (s.catalog.job n sheet).MadeFrom rule selectors t r) ∧
        ∀ q, ((s.catalog.job n sheet).placesBehind rule q).Pairwise (· ≥ ·) ∧
          (((s.catalog.job n sheet).placesBehind rule q).Pairwise (· ≤ ·) ↔
            ∀ i ∈ (s.catalog.job n sheet).placesBehind rule q,
              ∀ j ∈ (s.catalog.job n sheet).placesBehind rule q, i = j) := by
  obtain ⟨k, hk, rfl⟩ := Session.exists_of_compile hsheet hout
  obtain ⟨compiled, state, hwalk, hsound, herror, number, hnodes⟩ := compile_ok hk
  obtain ⟨-, -, lists, hlists, houter⟩ := Job.settlesRules_settleNodes hsound compiled herror
  refine ⟨outerRules compiled, lists, number, forall₂_outerRules hwalk,
    hlists.imp fun _ _ h => h.leavesBehind, ?_, fun rule _ => ⟨fun t ht => Job.exists_madeFrom ht,
      fun q => ⟨Job.pairwise_placesBehind, Job.pairwise_placesBehind_iff⟩⟩⟩
  rw [hnodes, outerRules_append, houter]

/-- A rule resolves a conflict with a class of another block, for which there are two rules. -/
def twoTargets : Session :=
  .ofFiles [("other.css", ".foo \x7b color: blue \x7d .foo \x7b color: green \x7d"),
    ("main.css", "@block-reference other from \"other.css\"; " ++
      ".bar \x7b color: red; color: resolve(\"other.foo\") \x7d")] ["main.css"]

def Stylesheet.ruleValues (sheet : Stylesheet) : List (List String) :=
  sheet.rules.map fun r => r.declarations.map (·.value)

theorem twoTargets_compile : (twoTargets.compile 0).1.toOption.any (fun out =>
    out.ruleValues == [["red"], ["green"], ["blue"]] &&
      (twoTargets.catalog.block 1).stylesheet.any
        (·.ruleValues == [["blue"], ["green"]])) = true := by
  decide +kernel

theorem compile_reverses_targets_twoTargets : ∃ sheet out,
    (twoTargets.catalog.block 0).stylesheet = some sheet ∧ (twoTargets.compile 0).1 = .ok out ∧
    ∃ (rules : List Rule) (lists : List (List Rule)) (number : Nat),
      List.Forall₂ (twoTargets.catalog.job 0 sheet).LeavesBehind rules lists ∧
      outerRules out.nodes = lists.flatten ++ outerRules
        (exportNodes (twoTargets.catalog.job 0 sheet) twoTargets.library.options number) ∧
      ∀ rule ∈ rules, ∀ q,
        ((twoTargets.catalog.job 0 sheet).placesBehind rule q).Pairwise (· ≥ ·) := by
  obtain ⟨sheet, out, hsheet, hout, -⟩ := Session.exists_of_compile_any twoTargets_compile
  obtain ⟨rules, lists, number, -, hlists, hrules, hplaces⟩ := compile_reverses_targets hsheet hout
  exact ⟨sheet, out, hsheet, hout, rules, lists, number, hlists, hrules,
    fun rule hrule q => ((hplaces rule hrule).2 q).1⟩

/-- The other block has its last word with the second rule, and the compiled stylesheet with what is
made from the first one. -/
theorem twoTargets_reversed : ∃ out other, (twoTargets.compile 0).1 = .ok out ∧
    (twoTargets.catalog.block 1).stylesheet = some other ∧
    other.ruleValues = [["blue"], ["green"]] ∧
    out.ruleValues = [["red"], ["green"], ["blue"]] := by
  obtain ⟨-, out, -, hout, hvalues⟩ := Session.exists_of_compile_any twoTargets_compile
  obtain ⟨hred, hother⟩ := Bool.and_eq_true_iff.1 hvalues
  obtain ⟨other, hsheet, hblue⟩ := (Option.any_eq_true _ _).1 hother
  exact ⟨out, other, hout, hsheet, eq_of_beq hblue, eq_of_beq hred⟩

end StyleBlocks
