import Mathlib.Data.List.Find
import StyleBlocks.Proofs.Compilation.Levels

/-!
# Which value of a longhand wins behind a rule

A resolution that stands before a rule's own values makes the rule emit rules with these values
again.  Each emitted rule has the values of one property only, by its name, and the emitted rules
stand in reverse order.  Where a rule sets a longhand under several names, the emitted rules need
not end with the value that the rule itself ends with.

Main result: `compile_last_values`.
-/

namespace StyleBlocks

open List

/-! ## The last value of a longhand -/

/-- The value and the priority of the last declaration that sets a longhand. -/
def finalValue (x : String) (ds : List Declaration) : Option (String × Bool) :=
  ((ds.filter fun d => (covered d.property).contains x).getLast?).map
    fun d => (d.value, d.important)

theorem finalValue_append (x : String) (l₁ l₂ : List Declaration) :
    finalValue x (l₁ ++ l₂) = (finalValue x l₂).or (finalValue x l₁) := by
  rw [finalValue, filter_append, getLast?_append, Option.map_or]
  rfl

theorem finalValue_flatMap_reverse {α : Type} (x : String) (f : α → List Declaration) (l : List α) :
    finalValue x (l.reverse.flatMap f)
      = (l.find? fun a => (finalValue x (f a)).isSome).bind fun a => finalValue x (f a) := by
  induction l with
  | nil => rfl
  | cons a l ih =>
    rw [reverse_cons, flatMap_append, flatMap_singleton, finalValue_append, ih, find?_cons]
    cases h : finalValue x (f a) with
    | none => rfl
    | some v => exact h.symm

theorem finalValue_flatMap_congr {α : Type} {x : String} {f g : α → List Declaration} {l : List α}
    (h : ∀ a ∈ l, finalValue x (f a) = finalValue x (g a)) :
    finalValue x (l.flatMap f) = finalValue x (l.flatMap g) := by
  induction l with
  | nil => rfl
  | cons a l ih =>
    rw [flatMap_cons, flatMap_cons, finalValue_append, finalValue_append, h a (by simp),
      ih fun b hb => h b (by simp [hb])]

theorem finalValue_map_location (x : String) (ds : List Declaration) (l : Location) :
    finalValue x (ds.map fun d => { d with location := l }) = finalValue x ds := by
  rw [finalValue, filter_map, getLast?_map, Option.map_map]
  rfl

theorem isSome_finalValue {x p : String} {ds : List Declaration} (hp : ∀ d ∈ ds, d.property = p)
    (hne : ds ≠ []) : (finalValue x ds).isSome = (covered p).contains x := by
  have hfilter : (ds.filter fun d => (covered d.property).contains x)
      = if (covered p).contains x then ds else [] := by
    cases hx : (covered p).contains x with
    | true => exact filter_eq_self.2 fun d hd => by rw [hp d hd, hx]
    | false => exact filter_eq_nil_iff.2 fun d hd => by rw [hp d hd, hx]; simp
  rw [finalValue, Option.isSome_map, hfilter]
  cases (covered p).contains x with
  | true => rw [if_pos rfl, getLast?_eq_getLast_of_ne_nil hne]; rfl
  | false => rfl

namespace Rule

variable {r : Rule} {p : String}

def settled (r : Rule) : Rule :=
  ⟨r.toRuleHead, r.body.filter Job.isConcrete⟩

theorem settingsOf_eq (r : Rule) (p : String) :
    r.settingsOf p = r.settled.declarations.filter fun d => decide (d.property = p) := by
  rw [settled, Job.declarations_filter_isConcrete, filter_filter]
  rfl

theorem finalValue_settingsOf {x : String}
    (h : ∀ d ∈ r.settled.declarations, x ∈ covered d.property → d.property = p) :
    finalValue x (r.settingsOf p) = finalValue x r.settled.declarations := by
  rw [settingsOf_eq, finalValue, finalValue, filter_filter]
  congr 2
  refine filter_congr fun d hd => ?_
  cases hx : (covered d.property).contains x with
  | false => rfl
  | true => simp [h d hd (contains_iff_mem.1 hx)]

end Rule

/-! ## What is made from one rule of another block -/

namespace Job

variable {c : Job} {rule : Rule} {t : Trace}

/-- The object whose rules a resolution makes the rule emit for. -/
def targetOf? (c : Job) (rule : Rule) (q : Request) : Option ObjectId :=
  match Selector.parseList rule.selector, c.resolutionTarget q with
  | .ok selectors, .ok first => (c.catalog.lineage first).find?
    (c.contradicts q selectors (rule.settingsOf q.declaration.property))
  | _, _ => none

/-- What is traced is made from the rule in the place `i` of the stylesheet of the block `b`. -/
def isFrom (c : Job) (rule : Rule) (b i : Nat) (t : Trace) : Bool :=
  (c.targetOf? rule t.request).any (·.block == b) && t.place == i

/-- All resolutions of the rule stand before its own values. -/
def Underrides (c : Job) (rule : Rule) : Prop :=
  ∀ requests, c.requests rule = .ok requests → ∀ q ∈ requests,
    c.isOverride q (ownValues rule q.declaration.property) = .ok false

/-- The resolution makes the rule emit for an object of another block, and the rule in the place
that is told sets the property for that object. -/
def IsPlaced (c : Job) (rule : Rule) (t : Trace) : Prop :=
  ∃ target sheet r, c.targetOf? rule t.request = some target ∧
    (c.catalog.block target.block).stylesheet = some sheet ∧
    sheet.conditionalRules[t.place]? = some r ∧
    c.rivalsIn target t.request.declaration.property r ≠ []

theorem of_mem_traces (h : t ∈ c.traces rule) : c.IsPlaced rule t ∧
    (c.Underrides rule → t.emission.values = rule.settingsOf t.request.declaration.property ∧
      rule.settingsOf t.request.declaration.property ≠ []) := by
  unfold traces at h
  split at h
  · rename_i requests selectors hrequests hselectors
    obtain ⟨q, hq, h⟩ := mem_flatMap.1 h
    unfold tracesFor at h
    dsimp only at h
    rw [map_snd_ownValues] at h
    split at h
    · rename_i override first hoverride hfirst
      obtain ⟨target, htarget, h⟩ := mem_flatMap.1 h
      obtain ⟨rfl, sheet, r, hsheet, hr, m, hm, he⟩ := of_mem_tracesAt h
      have htarget' : c.targetOf? rule t.request = some target := by
        rw [targetOf?, hselectors, hfirst]
        exact Option.mem_toList.1 htarget
      refine ⟨⟨target, sheet, r, htarget', hsheet, hr, ne_nil_of_mem hm⟩, fun hunder => ?_⟩
      rw [hunder requests hrequests _ hq] at hoverride
      cases hoverride
      refine ⟨(of_emission? he).2, fun hnil => ?_⟩
      rw [Rule.settingsOf, ← map_snd_ownValues, map_eq_nil_iff] at hnil
      have hunder := hunder requests hrequests _ hq
      rw [hnil] at hunder
      cases hunder
    · cases h
  · cases h

/-- The rules behind a rule that are made from the rule in the place `i` of the stylesheet of the
block `b`, in the order of the output. -/
def emittedFrom (c : Job) (rule : Rule) (b i : Nat) (emitted : List Rule) : List Rule :=
  (((c.traces rule).reverse.zip emitted).filter fun a => c.isFrom rule b i a.1).map Prod.snd

/-- The first thing that is emitted from that rule and sets the longhand. -/
def firstFrom? (c : Job) (rule : Rule) (b i : Nat) (x : String) : Option Trace :=
  ((c.traces rule).filter (c.isFrom rule b i)).find? fun t =>
    (covered t.request.declaration.property).contains x

/-- **They end with the last value for the property of the first resolution** that makes the rule
emit something for the longhand. -/
theorem finalValue_emittedFrom (hunder : c.Underrides rule) {emitted : List Rule}
    (h : Forall₂ (fun t r => t.emission.IsRule r) (c.traces rule).reverse emitted)
    (b i : Nat) (x : String) :
    finalValue x ((c.emittedFrom rule b i emitted).flatMap Rule.declarations)
      = (c.firstFrom? rule b i x).bind fun t =>
        finalValue x (rule.settingsOf t.request.declaration.property) := by
  obtain ⟨hlength, hrules⟩ := forall₂_iff_zip.1 h
  have hvalues : ∀ a ∈ (c.traces rule).reverse.zip emitted, finalValue x a.2.declarations
      = finalValue x (rule.settingsOf a.1.request.declaration.property) := by
    rintro ⟨t, r⟩ ha
    obtain ⟨number, place, settled, hr⟩ := hrules ha
    have hown := (of_mem_traces (mem_reverse.1 (of_mem_zip ha).1)).2 hunder
    rw [hr, t.emission.declarations_toRule, finalValue_map_location, hown.1]
  have hfirst : ((c.traces rule).reverse.zip emitted).map Prod.fst = (c.traces rule).reverse :=
    map_fst_zip (Nat.le_of_eq hlength)
  calc finalValue x ((c.emittedFrom rule b i emitted).flatMap Rule.declarations)
      = finalValue x ((((c.traces rule).reverse.zip emitted).filter
          fun a => c.isFrom rule b i a.1).flatMap fun a => a.2.declarations) := by
        rw [emittedFrom, flatMap_map]
    _ = finalValue x ((((c.traces rule).reverse.zip emitted).filter
          fun a => c.isFrom rule b i a.1).flatMap fun a =>
            rule.settingsOf a.1.request.declaration.property) :=
        finalValue_flatMap_congr fun a ha => hvalues a (mem_filter.1 ha).1
    _ = finalValue x (((((c.traces rule).reverse.zip emitted).map Prod.fst).filter
          (c.isFrom rule b i)).flatMap fun t =>
            rule.settingsOf t.request.declaration.property) := by
        rw [filter_map, flatMap_map]
        rfl
    _ = finalValue x (((c.traces rule).filter (c.isFrom rule b i)).reverse.flatMap fun t =>
          rule.settingsOf t.request.declaration.property) := by
        rw [hfirst, filter_reverse]
    _ = _ := by
        rw [finalValue_flatMap_reverse, firstFrom?, find?_congr fun t ht => ?_]
        refine isSome_finalValue (fun d hd => ?_) ((of_mem_traces (mem_filter.1 ht).1).2 hunder).2
        have hd := (mem_filter.1 hd).2
        simp only [Bool.and_eq_true, decide_eq_true_eq] at hd
        exact hd.1

end Job

/-- **The last value behind a rule.**  In a compiled stylesheet each rule that stands in no other
one has behind it what its resolutions make it emit.  Let all of them stand before the rule's own
values.  Then the rules that are made from one rule of another block end, for every longhand, with
the last value that the rule has for the property of the first resolution that makes it emit
something for the longhand, by the name of the property.  So they end with the rule's own last value
if and only if that is the last one under this name, which is so if the rule sets the longhand under
one name only. -/
theorem compile_last_values {s : Session} {n : Nat} {sheet out : Stylesheet}
    (hsheet : (s.catalog.block n).stylesheet = some sheet) (hout : (s.compile n).1 = .ok out) :
    ∃ (k : Compilation) (lists : List (List Rule)) (number : Nat),
      Pass.sequence ((passes (s.catalog.job n sheet) s.library.options).take 4)
        { sheet := sheet } = (k, none) ∧
      List.Forall₂ (fun r r' => ∃ selectors compiled,
        (s.catalog.job n sheet).CompiledTo r r' selectors compiled)
        (outerRules (clearNodes sheet.nodes)) (outerRules k.sheet.nodes) ∧
      List.Forall₂ (fun rule l => ∃ emitted, l = rule.settled :: emitted ∧
          List.Forall₂ (fun t r => t.emission.IsRule r ∧ (s.catalog.job n sheet).IsPlaced rule t)
            ((s.catalog.job n sheet).traces rule).reverse emitted ∧
          ((s.catalog.job n sheet).Underrides rule → ∀ b i x,
            (finalValue x (((s.catalog.job n sheet).emittedFrom rule b i emitted).flatMap
                Rule.declarations)
              = ((s.catalog.job n sheet).firstFrom? rule b i x).bind fun t =>
                finalValue x (rule.settingsOf t.request.declaration.property)) ∧
            ∀ t, (s.catalog.job n sheet).firstFrom? rule b i x = some t →
              (∀ d ∈ rule.settled.declarations, x ∈ covered d.property →
                d.property = t.request.declaration.property) →
              finalValue x (((s.catalog.job n sheet).emittedFrom rule b i emitted).flatMap
                  Rule.declarations)
                = finalValue x rule.settled.declarations))
        (outerRules k.sheet.nodes) lists ∧
      outerRules out.nodes = lists.flatten ++
        outerRules (exportNodes (s.catalog.job n sheet) s.library.options number) := by
  obtain ⟨k, hk, rfl⟩ := Session.exists_of_compile hsheet hout
  obtain ⟨k₄, state, hk₄, hwalk, hsound, herror, number, hnodes⟩ := sited_compile_ok hk
  obtain ⟨-, -, lists, hlists, houter⟩ := Job.settlesRules_settleNodes hsound _ herror
  refine ⟨k₄, lists, number, hk₄, ?_, ?_, ?_⟩
  · exact forall₂_outerRules (forall₂_placedRules (R := fun r r' => ∃ selectors written,
      (s.catalog.job n sheet).CompiledTo r r' selectors written) hwalk)
  · refine hlists.imp fun rule l hl => ?_
    obtain ⟨emitted, hemitted, hl⟩ := hl.leavesBehind
    refine ⟨emitted, hl, ?_, fun hunder b i x => ?_⟩
    · exact forall₂_imp_of_mem hemitted fun t r ht hr =>
        ⟨hr, (Job.of_mem_traces (List.mem_reverse.1 ht)).1⟩
    · have hlast := Job.finalValue_emittedFrom hunder hemitted b i x
      refine ⟨hlast, fun t ht hone => ?_⟩
      rw [hlast, ht, Option.bind_some, Rule.finalValue_settingsOf hone]
  · rw [hnodes, outerRules_append, houter]

/-- A class overrides one of another block; both set a shorthand and then one of its longhands. -/
def mixedMargins : Session :=
  .ofFiles [("base.css", ".a \x7b margin: 5px; margin-top: 6px \x7d"),
    ("child.css", "@block-reference base from \"base.css\"; :scope \x7b extends: base \x7d " ++
      ".a \x7b margin: 1px; margin-top: 2px \x7d")] ["child.css"]

theorem mixedMargins_compile : (mixedMargins.compile 0).1.toOption.any (fun out =>
    let emitted := (out.rules.drop 1).flatMap Rule.declarations
    let own := (out.rules.take 1).flatMap Rule.declarations
    out.rules.length == 3 && finalValue "margin-top" emitted == some ("1px", false) &&
      finalValue "margin-top" own == some ("2px", false) &&
      (mixedMargins.catalog.block 1).stylesheet.any (·.rules.length == 1)) = true := by
  decide +kernel

theorem mixedMargins_resolutions : (mixedMargins.catalog.block 0).stylesheet.any (fun sheet =>
    let c := mixedMargins.catalog.job 0 sheet
    (outerRules (Pass.sequence ((passes c mixedMargins.library.options).take 4)
        { sheet := sheet }).1.sheet.nodes).any fun rule =>
      ((c.requests rule).toOption.any fun requests => requests.all fun q =>
        (c.isOverride q (Job.ownValues rule q.declaration.property)).toOption == some false) &&
      (c.firstFrom? rule 1 0 "margin-top").any (·.request.declaration.property == "margin"))
    = true := by
  decide +kernel

theorem compile_last_values_mixedMargins : ∃ sheet out,
    (mixedMargins.catalog.block 0).stylesheet = some sheet ∧ (mixedMargins.compile 0).1 = .ok out ∧
    ∃ rule emitted, (mixedMargins.catalog.job 0 sheet).Underrides rule ∧
      List.Forall₂ (fun t r => t.emission.IsRule r)
        ((mixedMargins.catalog.job 0 sheet).traces rule).reverse emitted ∧
      (∀ r ∈ rule.settled :: emitted, r ∈ outerRules out.nodes) ∧
      finalValue "margin-top"
          (((mixedMargins.catalog.job 0 sheet).emittedFrom rule 1 0 emitted).flatMap
            Rule.declarations)
        = finalValue "margin-top" (rule.settingsOf "margin") := by
  obtain ⟨sheet, out, hsheet, hout, -⟩ := Session.exists_of_compile_any mixedMargins_compile
  obtain ⟨k, lists, number, hk, -, hlists, houter⟩ := compile_last_values hsheet hout
  have hrules := mixedMargins_resolutions
  rw [hsheet, Option.any_some] at hrules
  simp only [hk] at hrules
  obtain ⟨rule, hrule, hresolutions⟩ := List.any_eq_true.1 hrules
  obtain ⟨hunder, hfirst⟩ := Bool.and_eq_true_iff.1 hresolutions
  obtain ⟨requests, hrequests, hunder⟩ := (Option.any_eq_true _ _).1 hunder
  obtain ⟨t, ht, hproperty⟩ := (Option.any_eq_true _ _).1 hfirst
  obtain ⟨l, hl, emitted, rfl, hemitted, hlast⟩ := exists_right_of_forall₂ hlists hrule
  have hunder' : (mixedMargins.catalog.job 0 sheet).Underrides rule := by
    intro requests' hrequests' q hq
    rw [except_toOption_some hrequests] at hrequests'
    cases hrequests'
    exact except_toOption_some (eq_of_beq (List.all_eq_true.1 hunder q hq))
  refine ⟨sheet, out, hsheet, hout, rule, emitted, hunder', hemitted.imp fun t r hr => hr.1, ?_, ?_⟩
  · intro r hr
    rw [houter]
    exact List.mem_append_left _ (List.mem_flatten_of_mem hl hr)
  · rw [(hlast hunder' 1 0 "margin-top").1, ht, Option.bind_some, eq_of_beq hproperty]

/-- Behind the rule, which ends with the longhand's own value, the last word for both classes is
that of the shorthand. -/
theorem mixedMargins_finalValue : ∃ out other r e₁ e₂, (mixedMargins.compile 0).1 = .ok out ∧
    (mixedMargins.catalog.block 1).stylesheet = some other ∧ other.rules.length = 1 ∧
    out.rules = [r, e₁, e₂] ∧
    finalValue "margin-top" r.declarations = some ("2px", false) ∧
    finalValue "margin-top" (e₁.declarations ++ e₂.declarations) = some ("1px", false) := by
  obtain ⟨-, out, -, hout, hvalues⟩ := Session.exists_of_compile_any mixedMargins_compile
  simp only [Bool.and_eq_true, beq_iff_eq] at hvalues
  obtain ⟨⟨⟨hlength, hemitted⟩, hown⟩, hother⟩ := hvalues
  obtain ⟨other, hsheet, hone⟩ := (Option.any_eq_true _ _).1 hother
  obtain ⟨r, e₁, e₂, hrules⟩ := List.length_eq_three.1 hlength
  rw [hrules] at hemitted hown
  refine ⟨out, other, r, e₁, e₂, hout, hsheet, eq_of_beq hone, hrules, ?_, ?_⟩
  · simpa using hown
  · simpa using hemitted

end StyleBlocks
