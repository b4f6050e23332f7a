import StyleBlocks.Proofs.Compilation.TargetOrder

/-!
# The at-rules around emitted rules

What a rule emits is put where the rule stands, inside copies of the at-rules around the rule of the
other block that it is made from.  So both lists of at-rules are around it, those of the emitting
rule outside.

Main result: `settle_conditions`.
-/

namespace StyleBlocks

open List

def AtHead.text (a : AtHead) : String × String :=
  (a.name, a.params)

namespace Job

variable {c : Job} {rule : Rule} {selectors : List Selector} {t : Trace} {r : List AtHead × Rule}

theorem MadeFrom.conditions (h : c.MadeFrom rule selectors t r) :
    t.emission.conditions.map AtHead.text = r.1.map AtHead.text := by
  obtain ⟨override, first, -, -, target, -, sheet, -, -, m, hm, he⟩ := h
  rw [(of_emission? he).1, (of_mem_rivalsIn hm).2, map_map]
  rfl

/-- The rule `b` is what is traced by `t`, for the rule `a`: it is made from a rule of another
block, and stands in the at-rules around `a` and inside them in those around that rule. -/
def EmittedAs (c : Job) (a : List AtHead × Rule) (t : Trace) (b : List AtHead × Rule) : Prop :=
  t.emission.IsRule b.2 ∧ ∃ selectors r, Selector.parseList a.2.selector = .ok selectors ∧
    c.MadeFrom a.2 selectors t r ∧ b.1.map AtHead.text = (a.1 ++ r.1).map AtHead.text

/-- What stands in the output for a rule that stands in no other one: the rule without its
resolutions, the rules in it, and what it emits, the last of it first. -/
def ExpandedTo (c : Job) (a : List AtHead × Rule) (l : List (List AtHead × Rule)) : Prop :=
  ∃ emitted, List.Forall₂ (c.EmittedAs a) (c.traces a.2).reverse emitted ∧
    l = (a.1, ⟨a.2.toRuleHead, a.2.body.filter isConcrete⟩) :: (rulesUnder a.1 a.2.body ++ emitted)

/-- A rule, and behind it the rules that stand in it. -/
def withNested (a : List AtHead × Rule) : List (List AtHead × Rule) :=
  a :: rulesUnder a.1 a.2.body

theorem withNested_of_isRule {e : Emission} {b : List AtHead × Rule} (h : e.IsRule b.2) :
    withNested b = [b] := by
  obtain ⟨number, place, settled, hb⟩ := h
  have hnone : rulesUnder b.1 b.2.body = [] := by
    rw [← map_eq_nil_iff (f := Prod.snd), map_snd_rulesUnder, hb, e.rulesOf_toRule]
  rw [withNested, hnone]

theorem rulesUnder_filter_isConcrete (conditions : List AtHead) (body : List Node) :
    rulesUnder conditions (body.filter isConcrete) = rulesUnder conditions body := by
  rw [← (map_rulesAt ⟨conditions, false⟩ _).2, rulesAt_filter_isConcrete,
    (map_rulesAt ⟨conditions, false⟩ _).2]

/-- **One rule.**  What settling leaves of a rule, with the rules that stand in it. -/
theorem SettledUnder.expandedTo {a : List AtHead × Rule} {l : List (List AtHead × Rule)}
    (h : c.SettledUnder a l) : c.ExpandedTo a (l.flatMap withNested) := by
  obtain ⟨emitted, hemitted, rfl⟩ := h
  rw [← map_emission_traces, forall₂_map_left_iff] at hemitted
  have hnested : emitted.reverse.flatMap withNested = emitted.reverse := by
    have hsingle : ∀ b ∈ emitted.reverse, withNested b = [b] := by
      intro b hb
      obtain ⟨t, -, -, hrule⟩ := exists_left_of_forall₂ hemitted (mem_reverse.1 hb)
      exact withNested_of_isRule hrule
    rw [flatMap_congr hsingle]
    exact flatMap_singleton' _
  refine ⟨emitted.reverse, forall₂_reverse_iff.2 ?_, ?_⟩
  · refine forall₂_imp_of_mem hemitted ?_
    rintro t b ht ⟨hconditions, hrule⟩
    obtain ⟨selectors, r, hparse, hmade⟩ := exists_madeFrom ht
    refine ⟨hrule, selectors, r, hparse, hmade, ?_⟩
    rw [hconditions, map_append, map_append, hmade.conditions]
  · rw [flatMap_cons, hnested, withNested, rulesUnder_filter_isConcrete]
    rfl

end Job

theorem forall₂_expandedTo {c : Job} {rules : List (List AtHead × Rule)}
    {lists : List (List (List AtHead × Rule))} (h : Forall₂ c.SettledUnder rules lists) :
    Forall₂ c.ExpandedTo rules (lists.map (·.flatMap Job.withNested)) ∧
      lists.flatten.flatMap Job.withNested = (lists.map (·.flatMap Job.withNested)).flatten := by
  constructor
  · rw [forall₂_map_right_iff]
    exact h.imp fun a l hl => hl.expandedTo
  · rw [← flatMap_id, flatMap_assoc, flatMap_def]
    rfl

/-- **Emitted rules stand in both lists of at-rules.**  Settling a stylesheet expands its rules,
from the first one to the last or to the first one that cannot be settled.  What a rule emits stands
in the at-rules around the rule and, inside them, in those around the rule of the other block that
it is made from; both are outermost first.  So it is in a compiled stylesheet, where each rule
stands in the at-rules in which it was written. -/
theorem settle_conditions :
    (∀ (c : Job) (k : Compilation), k.table.IsSound → ∃ settled rest lists,
      outerRulesUnder [] k.sheet.nodes = settled ++ rest ∧
      List.Forall₂ c.ExpandedTo settled lists ∧
      (c.settle k).1.sheet.conditionalRules = lists.flatten ++ rest.flatMap Job.withNested ∧
      ((c.settle k).2 = none → rest = [])) ∧
    ∀ (s : Session) (n : Nat) (sheet out : Stylesheet),
      (s.catalog.block n).stylesheet = some sheet → (s.compile n).1 = .ok out →
      ∃ k lists number,
        Pass.sequence ((passes (s.catalog.job n sheet) s.library.options).take 4)
          { sheet := sheet } = (k, none) ∧
        List.Forall₂ (fun a b => a.1 = b.1 ∧ ∃ selectors compiled,
            (s.catalog.job n sheet).CompiledTo a.2 b.2 selectors compiled)
          (outerRulesUnder [] (clearNodes sheet.nodes)) (outerRulesUnder [] k.sheet.nodes) ∧
        List.Forall₂ (s.catalog.job n sheet).ExpandedTo (outerRulesUnder [] k.sheet.nodes) lists ∧
        out.conditionalRules = lists.flatten ++
          rulesUnder [] (exportNodes (s.catalog.job n sheet) s.library.options number) := by
  constructor
  · intro c k hk
    obtain ⟨-, -, settled, rest, lists, hsplit, hlists, houter, hrest⟩ :=
      Job.settlesUnder_settleNodes (c := c) [] (s := ⟨k.table, k.sheet.nextRule⟩) hk k.sheet.nodes
    obtain ⟨hexpanded, hflat⟩ := forall₂_expandedTo hlists
    refine ⟨settled, rest, _, hsplit, hexpanded, ?_, hrest⟩
    calc (c.settle k).1.sheet.conditionalRules
        = (outerRulesUnder [] (c.settle k).1.sheet.nodes).flatMap Job.withNested :=
          rulesUnder_eq_flatMap [] _
      _ = (lists.flatten ++ rest).flatMap Job.withNested :=
        congrArg (List.flatMap Job.withNested) houter
      _ = _ := by rw [List.flatMap_append, hflat]
  · intro s n sheet out hsheet hout
    obtain ⟨k, hk, rfl⟩ := Session.exists_of_compile hsheet hout
    obtain ⟨k₄, state, hk₄, hwalk, hsound, herror, number, hnodes⟩ := sited_compile_ok hk
    obtain ⟨-, -, settled, rest, lists, hsplit, hlists, houter, hrest⟩ :=
      Job.settlesUnder_settleNodes [] hsound k₄.sheet.nodes
    obtain rfl : rest = [] := hrest herror
    rw [List.append_nil] at hsplit houter
    obtain ⟨hexpanded, hflat⟩ := forall₂_expandedTo hlists
    refine ⟨k₄, _, number, hk₄, ?_, hsplit ▸ hexpanded, ?_⟩
    · exact forall₂_outerRulesUnder (R := fun r r' => ∃ selectors written,
        (s.catalog.job n sheet).CompiledTo r r' selectors written) hwalk
    · calc k.sheet.conditionalRules
          = (outerRulesUnder [] k.sheet.nodes).flatMap Job.withNested := rulesUnder_eq_flatMap [] _
        _ = lists.flatten.flatMap Job.withNested ++ (outerRulesUnder []
              (exportNodes (s.catalog.job n sheet) s.library.options number)).flatMap
                Job.withNested := by
            rw [hnodes, outerRulesUnder_append, houter, List.flatMap_append]
        _ = _ := by
            rw [hflat]
            exact congrArg _ (rulesUnder_eq_flatMap [] _).symm

/-- A class and the class that it overrides, each two at-rules deep. -/
def deepOverride : Session :=
  .ofFiles [("base.css", "@media a \x7b @supports b \x7b .x \x7b color: red \x7d \x7d \x7d"),
    ("child.css", "@block-reference base from \"base.css\"; :scope \x7b extends: base \x7d " ++
      "@media c \x7b @layer d \x7b .x \x7b color: blue \x7d \x7d \x7d")] ["child.css"]

theorem deepOverride_compile : (deepOverride.compile 0).1.toOption.any (fun out =>
    out.conditionalRules.map (fun a => (a.1.map AtHead.text, a.2.selector)) ==
      [([("media", "c"), ("layer", "d")], ".child__x"),
       ([("media", "c"), ("layer", "d"), ("media", "a"), ("supports", "b")],
        ".child__x.base__x")]) = true := by
  decide +kernel

theorem settle_conditions_deepOverride : ∃ sheet out,
    (deepOverride.catalog.block 0).stylesheet = some sheet ∧ (deepOverride.compile 0).1 = .ok out ∧
    (∃ settled rest lists, outerRulesUnder [] sheet.nodes = settled ++ rest ∧
      List.Forall₂ (deepOverride.catalog.job 0 sheet).ExpandedTo settled lists) ∧
    (∃ (k : Compilation) (lists : List (List (List AtHead × Rule))) (number : Nat),
      List.Forall₂ (deepOverride.catalog.job 0 sheet).ExpandedTo
        (outerRulesUnder [] k.sheet.nodes) lists ∧
      out.conditionalRules = lists.flatten ++ rulesUnder []
        (exportNodes (deepOverride.catalog.job 0 sheet) deepOverride.library.options number)) ∧
    out.conditionalRules.map (fun a => (a.1.map AtHead.text, a.2.selector)) =
      [([("media", "c"), ("layer", "d")], ".child__x"),
       ([("media", "c"), ("layer", "d"), ("media", "a"), ("supports", "b")],
        ".child__x.base__x")] := by
  obtain ⟨sheet, out, hsheet, hout, hrules⟩ := Session.exists_of_compile_any deepOverride_compile
  obtain ⟨settled, rest, lists, hsplit, hlists, -⟩ :=
    settle_conditions.1 (deepOverride.catalog.job 0 sheet) { sheet := sheet }
      SelectorTable.isSound_empty
  obtain ⟨k, lists', number, -, -, hlists', hout'⟩ :=
    settle_conditions.2 deepOverride 0 sheet out hsheet hout
  exact ⟨sheet, out, hsheet, hout, ⟨settled, rest, lists, hsplit, hlists⟩,
    ⟨k, lists', number, hlists', hout'⟩, eq_of_beq hrules⟩

end StyleBlocks
