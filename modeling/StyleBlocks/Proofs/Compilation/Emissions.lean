import StyleBlocks.Proofs.Selector.Table

/-!
# What settling a rule emits

Settling runs with a table of selectors and numbers the rules it makes.  Neither changes what is
emitted: a run that succeeds emits the rules that are computed here from the texts alone.

Main result: `Job.settleRule_ok`.
-/

namespace StyleBlocks

/-- A rule that settling makes: the at-rules around it, the texts of its selectors, its values. -/
structure Emission where
  conditions : List AtHead
  texts : List String
  values : List Declaration

namespace Emission

def toRule (e : Emission) (number : Nat) (place settled : Location) : Rule :=
  ⟨⟨number, ",\n".intercalate e.texts, place⟩,
    e.values.map fun d => .declaration { d with location := settled }⟩

/-- The node is the rule of the emission inside its at-rules, with a number from `n` on. -/
def IsNode (n : Nat) (e : Emission) (node : Node) : Prop :=
  ∃ number place settled, n ≤ number ∧
    node = wrapIn e.conditions (e.toRule number place settled).toNode

end Emission

/-- The table of selectors is sound, and the rules to come have numbers from `n` on. -/
structure SettleState.IsSound (n : Nat) (s : SettleState) : Prop where
  table : s.table.IsSound
  number : n ≤ s.nextRule

/-- The numbers of the rules to come are the same, and the first table is sound. -/
structure SettleState.Alike (s s' : SettleState) : Prop where
  table : s.table.IsSound
  nextRule : s'.nextRule = s.nextRule

namespace Job

/-! ## The rules of the other block -/

/-- What one rule of the block of `target` contributes. -/
def rivalsIn (c : Job) (target : ObjectId) (property : String) (r : List AtHead × Rule) :
    List Rival :=
  if (valuesFor r.2 property).isEmpty then []
  else
    match Selector.parseList r.2.selector with
    | .error _ => []
    | .ok selectors => selectors.filterMap fun s =>
      ((c.rivalOf? target r.1 r.2 (valuesFor r.2 property) s).toOption).join

/-- The rules of the block of `target` whose selector's key names `target`, and which set the
property. -/
def rivals (c : Job) (target : ObjectId) (property : String) : List Rival :=
  match (c.catalog.block target.block).stylesheet with
  | none => []
  | some sheet => sheet.conditionalRules.flatMap (c.rivalsIn target property)

/-! The same, read from the texts and with the errors -/

/-- The selectors of a rule of the `n`-th block. -/
def readTarget (c : Job) (n : Nat) (rule : Rule) : Except BlockError (List Selector) :=
  (Selector.parseList rule.selector).mapError fun e =>
    .placed (.noSelector e) (some (c.catalog.block n).identifier) rule.location

def readRivalsIn (c : Job) (target : ObjectId) (property : String) (r : List AtHead × Rule) :
    Except BlockError (List Rival) := do
  let values := valuesFor r.2 property
  if values.isEmpty then return []
  let selectors ← c.readTarget target.block r.2
  let found ← selectors.mapM (c.rivalOf? target r.1 r.2 values)
  return found.filterMap id

/-- What `rivalsFor` finds, with every selector read from its text. -/
def readRivals (c : Job) (target : ObjectId) (property : String) :
    Except BlockError (List Rival) := do
  match (c.catalog.block target.block).stylesheet with
  | none => return []
  | some sheet =>
    let found ← sheet.conditionalRules.mapM (c.readRivalsIn target property)
    return found.flatten

theorem liftExcept_bind {α β : Type} (x : Except BlockError α) (f : α → Except BlockError β) :
    rivalsOfRule.liftExcept (x >>= f)
      = rivalsOfRule.liftExcept x >>= fun a => rivalsOfRule.liftExcept (f a) := by
  cases x <;> rfl

theorem liftExcept_mapM {α β : Type} (f : α → Except BlockError β) (l : List α) :
    rivalsOfRule.liftExcept (l.mapM f) = l.mapM fun a => rivalsOfRule.liftExcept (f a) := by
  induction l with
  | nil => rfl
  | cons a l ih =>
    rw [List.mapM_cons, List.mapM_cons, liftExcept_bind, ← ih]
    congr 1
    funext b
    rw [liftExcept_bind]
    rfl

section

variable {c : Job} {n : Nat} {s s' : SettleState} {target : ObjectId} {property : String}

theorem alike_targetSelectors (c : Job) (n : Nat) (rule : Rule) :
    Alike SettleState.Alike (c.targetSelectors n rule)
      (rivalsOfRule.liftExcept (c.readTarget n rule)) := by
  intro s s' hs
  have hfst := SelectorTable.get_fst hs.table n rule.toRuleHead
  have htable := hs.table.get n rule.toRuleHead
  have hget : (get : SettleM SettleState).run s = (.ok s, s) := rfl
  unfold targetSelectors readTarget
  rw [run_bind, hget, ← hfst]
  dsimp only
  generalize s.table.get n rule.toRuleHead = read at htable
  obtain ⟨_ | _, t⟩ := read <;> exact ⟨rfl, htable, hs.nextRule⟩

theorem alike_rivalsFor (c : Job) (target : ObjectId) (property : String) :
    Alike SettleState.Alike (c.rivalsFor target property)
      (rivalsOfRule.liftExcept (c.readRivals target property)) := by
  unfold rivalsFor readRivals
  cases (c.catalog.block target.block).stylesheet with
  | none => exact .pure []
  | some sheet =>
    dsimp only
    rw [liftExcept_bind, liftExcept_mapM]
    refine (Alike.mapM fun r _ => ?_).bind fun found => .pure _
    unfold rivalsOfRule readRivalsIn
    dsimp only
    split
    · exact .pure []
    rw [liftExcept_bind]
    refine (c.alike_targetSelectors _ _).bind fun selectors => ?_
    rw [liftExcept_bind, liftExcept_mapM]
    refine (Alike.mapM fun s _ => ?_).bind fun found => .pure _
    cases c.rivalOf? target r.1 r.2 (valuesFor r.2 property) s with
    | error e => exact .throw e
    | ok o => exact .pure o

/-- **Looking for the rules of a block is reading their texts.** -/
theorem run_rivalsFor (c : Job) (target : ObjectId) (property : String) (hs : s.IsSound n) :
    ∃ s', s'.IsSound n ∧
      (c.rivalsFor target property).run s = (c.readRivals target property, s') := by
  obtain ⟨hresult, hstate⟩ := c.alike_rivalsFor target property s s ⟨hs.table, rfl⟩
  have hrun : (rivalsOfRule.liftExcept (c.readRivals target property)).run s
      = (c.readRivals target property, s) := by
    cases c.readRivals target property <;> rfl
  rw [hrun] at hresult hstate
  exact ⟨_, ⟨hstate.table, hstate.nextRule ▸ hs.number⟩, Prod.ext hresult rfl⟩

theorem readRivalsIn_ok {r : List AtHead × Rule} {found : List Rival}
    (h : c.readRivalsIn target property r = .ok found) :
    c.rivalsIn target property r = found := by
  simp only [readRivalsIn] at h
  unfold rivalsIn
  split at h
  · rename_i hv
    cases h
    exact if_pos hv
  rename_i hv
  obtain ⟨selectors, hread, h⟩ := except_bind_ok h
  obtain ⟨options, hm, h⟩ := except_bind_ok h
  cases h
  rw [if_neg hv, except_mapError_ok_iff.1 hread]
  dsimp only
  rw [← map_of_mapM_ok (g := fun s => ((c.rivalOf? target r.1 r.2 _ s).toOption).join) hm
    fun s o ho => by rw [ho]; rfl, List.filterMap_map]
  rfl

theorem rivalsFor_ok {found : List Rival} (hs : s.IsSound n)
    (h : (c.rivalsFor target property).run s = (.ok found, s')) :
    found = c.rivals target property ∧ s'.IsSound n := by
  obtain ⟨t, ht, hrun⟩ := c.run_rivalsFor target property hs
  obtain ⟨hread, rfl⟩ := Prod.mk.inj (hrun.symm.trans h)
  refine ⟨?_, ht⟩
  unfold readRivals at hread
  unfold rivals
  cases hsheet : (c.catalog.block target.block).stylesheet with
  | none =>
    rw [hsheet] at hread
    cases hread
    rfl
  | some sheet =>
    rw [hsheet] at hread
    obtain ⟨lists, hm, hread⟩ := except_bind_ok hread
    cases hread
    rw [← map_of_mapM_ok hm fun r _ => readRivalsIn_ok]
    rfl

end

/-! ## One resolution -/

section

variable (c : Job) (q : Request) (selectors : List Selector) (own : List Declaration)

/-- How a rule's own values relate to those of a rival, and the selectors for what both select. -/
def verdict (m : Rival) : Clash × List String :=
  ((c.mergeRival q selectors own m).toOption).getD (.noConflict, [])

/-- What one rival makes a rule emit. -/
def emission? (override : Bool) (m : Rival) : Option Emission :=
  let texts := (c.verdict q selectors own m).2
  if texts.isEmpty then none else some ⟨m.conditions, texts, if override then m.values else own⟩

def levelClash (hits : List Rival) : Clash :=
  hits.foldl (fun level m => level.join (c.verdict q selectors own m).1) .noConflict

/-- What the objects make a rule emit, one after the other, until one has conflicting rules. -/
def emissionsAlong (override : Bool) : List ObjectId → List Emission
  | [] => []
  | target :: targets =>
    let hits := c.rivals target q.declaration.property
    let emitted := hits.filterMap (c.emission? q selectors own override)
    if c.levelClash q selectors own hits = .conflict then emitted
    else emitted ++ emissionsAlong override targets

end

/-- What one resolution makes a rule emit. -/
def emissionsFor (c : Job) (rule : Rule) (selectors : List Selector) (q : Request) :
    List Emission :=
  let own := ownValues rule q.declaration.property
  match c.isOverride q own, c.resolutionTarget q with
  | .ok override, .ok target =>
    c.emissionsAlong q selectors (own.map Prod.snd) override (c.catalog.lineage target)
  | _, _ => []

/-- What the resolutions in a rule make it emit, in their order. -/
def emissionsOf (c : Job) (rule : Rule) : List Emission :=
  match c.requests rule, Selector.parseList rule.selector with
  | .ok requests, .ok selectors => requests.flatMap (c.emissionsFor rule selectors)
  | _, _ => []

section

variable {c : Job} {n : Nat} {s s' : SettleState} {rule : Rule} {q : Request}
  {selectors : List Selector} {own : List Declaration} {override : Bool} {nodes : List Node}

theorem of_emission? {m : Rival} {e : Emission}
    (h : c.emission? q selectors own override m = some e) :
    e.conditions = m.conditions ∧ e.values = if override then m.values else own := by
  unfold emission? at h
  dsimp only at h
  split at h <;> cases h
  exact ⟨rfl, rfl⟩

theorem emitRule_ok {texts : List String} {values : List Declaration} {conditions : List AtHead}
    {node : Node} (hs : s.IsSound n)
    (h : (emitRule rule q texts values conditions).run s = (.ok node, s')) :
    (⟨conditions, texts, values⟩ : Emission).IsNode n node ∧ s'.IsSound n := by
  obtain ⟨_, _, hg, h⟩ := run_bind_ok h
  cases hg
  obtain ⟨_, _, hset, h⟩ := run_bind_ok h
  cases hset
  cases h
  exact ⟨⟨_, _, _, hs.number, rfl⟩, hs.table, Nat.le_succ_of_le hs.number⟩

theorem settleRival_ok {found found' : Clash × List Node} {m : Rival} (hs : s.IsSound n)
    (h : (c.settleRival rule q selectors own override found m).run s = (.ok found', s')) :
    found'.1 = found.1.join (c.verdict q selectors own m).1 ∧ s'.IsSound n ∧
      ∃ nodes, found'.2 = found.2 ++ nodes ∧
        List.Forall₂ (Emission.IsNode n) (c.emission? q selectors own override m).toList nodes := by
  unfold settleRival at h
  unfold emission? verdict
  split at h
  · cases h
  rename_i clash texts hm
  simp only [hm, Except.toOption, Option.getD_some]
  split at h
  · rename_i ht
    cases h
    exact ⟨rfl, hs, [], by simp, by simp [ht]⟩
  rename_i ht
  obtain ⟨node, t, he, h⟩ := run_bind_ok h
  obtain ⟨hn, htab⟩ := emitRule_ok hs he
  cases h
  exact ⟨rfl, htab, [node], rfl, by simpa [ht] using hn⟩

theorem settleLevel_ok {hits : List Rival} {level : Clash} (hs : s.IsSound n)
    (h : (hits.foldlM (c.settleRival rule q selectors own override) (.noConflict, [])).run s
      = (.ok (level, nodes), s')) :
    level = c.levelClash q selectors own hits ∧ s'.IsSound n ∧
      List.Forall₂ (Emission.IsNode n) (hits.filterMap (c.emission? q selectors own override))
        nodes := by
  refine foldlM_ok (fun done found t => found.1 = c.levelClash q selectors own done ∧ t.IsSound n ∧
    List.Forall₂ (Emission.IsNode n) (done.filterMap (c.emission? q selectors own override)) found.2)
    ?_ h ⟨rfl, hs, .nil⟩
  rintro done m rest found t found' t' - ⟨hl, ht, hn⟩ hstep
  obtain ⟨hl', ht', nodes', hf, hn'⟩ := settleRival_ok ht hstep
  refine ⟨?_, ht', ?_⟩
  · rw [hl', hl, levelClash, levelClash, List.foldl_append]
    rfl
  · rw [hf, List.filterMap_append]
    refine List.rel_append hn ?_
    cases he : c.emission? q selectors own override m <;> simpa [he] using hn'

theorem settleLevels_ok {targets : List ObjectId} {found found' : Clash} (hs : s.IsSound n)
    (h : (c.settleLevels rule q selectors own override found targets).run s
      = (.ok (found', nodes), s')) :
    List.Forall₂ (Emission.IsNode n) (c.emissionsAlong q selectors own override targets) nodes
      ∧ s'.IsSound n := by
  induction targets generalizing found found' nodes s with
  | nil =>
    cases h
    exact ⟨.nil, hs⟩
  | cons target targets ih =>
    obtain ⟨hits, t, hh, h⟩ := run_bind_ok h
    obtain ⟨rfl, ht⟩ := rivalsFor_ok hs hh
    obtain ⟨⟨level, emitted⟩, t₁, hl, h⟩ := run_bind_ok h
    obtain ⟨rfl, ht₁, hn⟩ := settleLevel_ok ht hl
    rw [emissionsAlong]
    dsimp only at h
    split at h
    · rename_i hc
      cases h
      rw [if_pos hc]
      exact ⟨hn, ht₁⟩
    rename_i hc
    obtain ⟨⟨found₂, others⟩, t₂, ho, h⟩ := run_bind_ok h
    cases h
    obtain ⟨hn₂, ht₂⟩ := ih ht₁ ho
    rw [if_neg hc]
    exact ⟨List.rel_append hn hn₂, ht₂⟩

theorem settleRequest_ok (hs : s.IsSound n)
    (h : (c.settleRequest rule selectors q).run s = (.ok nodes, s')) :
    List.Forall₂ (Emission.IsNode n) (c.emissionsFor rule selectors q) nodes ∧ s'.IsSound n := by
  simp only [settleRequest] at h
  unfold emissionsFor
  split at h
  · cases h
  · cases h
  rename_i override target hov htarget
  simp only [hov, htarget]
  obtain ⟨⟨found, nodes'⟩, t, hl, h⟩ := run_bind_ok h
  have hn := settleLevels_ok hs hl
  split at h
  · cases h
  · cases h
    exact hn

/-- **A rule that is settled with success gets the nodes of its emissions.** -/
theorem settleRule_ok (hs : s.IsSound n) (h : (c.settleRule rule).run s = (.ok nodes, s')) :
    List.Forall₂ (Emission.IsNode n) (c.emissionsOf rule) nodes ∧ s'.IsSound n := by
  unfold settleRule at h
  unfold emissionsOf
  split at h
  · cases h
  · rename_i hreq
    cases h
    rw [hreq]
    refine ⟨?_, hs⟩
    cases Selector.parseList rule.selector <;> simp
  rename_i requests _ hreq
  obtain ⟨_, ht, hread⟩ := c.exists_selectors hs.table rule.toRuleHead
  obtain ⟨_, _, hg, h⟩ := run_bind_ok h
  cases hg
  rw [hread] at h
  obtain ⟨_, _, hset, h⟩ := run_bind_ok h
  cases hset
  split at h
  · cases h
  rename_i selectors hsel
  obtain ⟨lists, t, hm, h⟩ := run_bind_ok h
  cases h
  simp only [hreq, except_mapError_ok_iff.1 hsel]
  refine mapM_ok (fun done lists s => List.Forall₂ (Emission.IsNode n)
    (done.flatMap (c.emissionsFor rule selectors)) lists.flatten ∧ s.IsSound n)
    ?_ hm ⟨.nil, ht, hs.number⟩
  rintro done lists q rest s₁ l s₂ - ⟨hI, hs₁⟩ hstep
  obtain ⟨hn, hs₂⟩ := settleRequest_ok hs₁ hstep
  refine ⟨?_, hs₂⟩
  simpa using List.rel_append hI hn

end

end Job

/-! ## The object that makes a rule emit -/

open List

namespace Rival

/-- The selectors of a rule that ask for the pseudo-element that the rival asks for. -/
def comparable (m : Rival) (selectors : List Selector) : List Selector :=
  selectors.filter fun s => s.key.pseudoName? == m.selector.key.pseudoName?

/-- How a rule's own values relate to those of the rival.  They do not if no selector of the rule
asks for the pseudo-element that the rival asks for. -/
def clash (m : Rival) (selectors : List Selector) (own : List Declaration) : Clash :=
  if (m.comparable selectors).isEmpty then .noConflict else clashOf own m.values

/-- No merge with the rival's selector is rejected. -/
def Accepts (m : Rival) (selectors : List Selector) : Prop :=
  ∀ s ∈ m.comparable selectors, ∃ merged, mergeSelectors s m.selector = .ok merged

/-- The selectors for what both a rule and the rival select. -/
def mergedTexts (m : Rival) (selectors : List Selector) : List String :=
  (((m.comparable selectors).map fun s =>
    (mergeSelectors s m.selector).toOption.getD []).flatten.map Selector.render).eraseDups

/-- What the rival makes a rule emit: for what both select the rival's values, if the resolution
overrides, and the rule's own values, if it does not. -/
def answer? (m : Rival) (selectors : List Selector) (own : List Declaration) (override : Bool) :
    Option Emission :=
  if m.clash selectors own = .conflict ∧ m.mergedTexts selectors ≠ [] then
    some ⟨m.conditions, m.mergedTexts selectors, if override then m.values else own⟩
  else none

end Rival

namespace Job

variable {c : Job} {q : Request} {selectors : List Selector} {own : List Declaration}
  {override : Bool} {m : Rival}

section

variable (h : m.clash selectors own = .conflict → m.Accepts selectors)

include h

theorem mergeRival_of_accepts :
    c.mergeRival q selectors own m = .ok (m.clash selectors own,
      if m.clash selectors own = .conflict then m.mergedTexts selectors else []) := by
  change (if (m.comparable selectors).isEmpty then _
    else if clashOf own m.values != .conflict then _
    else _) = _
  unfold Rival.clash at h ⊢
  by_cases hnone : (m.comparable selectors).isEmpty = true
  · simp [hnone]
  by_cases hclash : clashOf own m.values = .conflict
  · rw [if_neg hnone, hclash] at h
    have hmerged : ∀ s ∈ m.comparable selectors, (mergeSelectors s m.selector).mapError
        (fun fault => c.errorIn fault q.declaration.location)
          = .ok ((mergeSelectors s m.selector).toOption.getD []) := by
      intro s hs
      obtain ⟨merged, hm⟩ := h rfl s hs
      rw [hm]
      rfl
    simp only [hnone, Bool.false_eq_true, if_false, hclash, bne_self_eq_false, if_true]
    change Except.bind ((m.comparable selectors).mapM _) _ = _
    rw [mapM_eq_ok hmerged]
    rfl
  · simp [hnone, hclash]

theorem emission?_eq_answer? :
    c.emission? q selectors own override m = m.answer? selectors own override := by
  unfold emission? verdict Rival.answer?
  rw [mergeRival_of_accepts h]
  by_cases hclash : m.clash selectors own = .conflict
  · by_cases htexts : m.mergedTexts selectors = [] <;> simp [hclash, htexts, Except.toOption]
  · simp [hclash, Except.toOption]

theorem verdict_fst_eq : (c.verdict q selectors own m).1 = m.clash selectors own := by
  rw [verdict, mergeRival_of_accepts h]
  rfl

end

theorem foldl_join_eq_conflict (f : Rival → Clash) (hits : List Rival) (level : Clash) :
    hits.foldl (fun level m => level.join (f m)) level = .conflict ↔
      level = .conflict ∨ ∃ m ∈ hits, f m = .conflict := by
  have hjoin : ∀ a b : Clash, a.join b = .conflict ↔ a = .conflict ∨ b = .conflict := by
    intro a b
    cases a <;> cases b <;> simp [Clash.join]
  induction hits generalizing level with
  | nil => simp
  | cons m hits ih =>
    refine (ih _).trans ?_
    simp [hjoin, or_assoc]

/-- The rules for an object set the property of a resolution to other values than the rule itself.
-/
def contradicts (c : Job) (q : Request) (selectors : List Selector) (own : List Declaration)
    (target : ObjectId) : Bool :=
  c.levelClash q selectors own (c.rivals target q.declaration.property) == .conflict

theorem emission?_eq_none (h : (c.verdict q selectors own m).1 ≠ .conflict) :
    c.emission? q selectors own override m = none := by
  have htexts : (c.verdict q selectors own m).2 = [] := by
    revert h
    unfold verdict mergeRival
    dsimp only
    split
    · exact fun _ => rfl
    split
    · exact fun _ => rfl
    rename_i hclash
    have hclash : clashOf own m.values = .conflict := by simpa using hclash
    intro h
    cases hmerged : (selectors.filter fun s =>
        s.key.pseudoName? == m.selector.key.pseudoName?).mapM fun s =>
      (mergeSelectors s m.selector).mapError fun fault =>
        c.errorIn fault q.declaration.location with
    | error e => rfl
    | ok merged =>
      rw [hmerged] at h
      exact absurd hclash h
  unfold emission?
  rw [htexts]
  rfl

theorem filterMap_emission?_eq_nil {target : ObjectId}
    (h : c.contradicts q selectors own target = false) :
    (c.rivals target q.declaration.property).filterMap (c.emission? q selectors own override)
      = [] := by
  refine filterMap_eq_nil_iff.2 fun m hm => emission?_eq_none fun hconflict => ?_
  have hlevel : c.levelClash q selectors own (c.rivals target q.declaration.property) = .conflict :=
    (foldl_join_eq_conflict _ _ _).2 (.inr ⟨m, hm, hconflict⟩)
  rw [contradicts, hlevel] at h
  cases h

/-- **One object makes a rule emit**: the first one whose rules contradict it. -/
theorem emissionsAlong_eq (targets : List ObjectId) :
    c.emissionsAlong q selectors own override targets
      = (targets.find? (c.contradicts q selectors own)).toList.flatMap fun target =>
        (c.rivals target q.declaration.property).filterMap
          (c.emission? q selectors own override) := by
  induction targets with
  | nil => rfl
  | cons target targets ih =>
    rw [emissionsAlong]
    cases h : c.contradicts q selectors own target with
    | true =>
      rw [if_pos (by simpa [contradicts] using h), find?_cons_of_pos h]
      exact (flatMap_singleton _ _).symm
    | false =>
      rw [if_neg (by simpa [contradicts] using h), find?_cons_of_neg (by simp [h]),
        filterMap_emission?_eq_nil h, nil_append, ih]

end Job

end StyleBlocks
