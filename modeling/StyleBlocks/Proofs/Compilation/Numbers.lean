import Mathlib.Data.List.Flatten
import Mathlib.Data.List.Intervals
import Mathlib.Data.List.Perm.Subperm
import StyleBlocks.Compilation.Run
import StyleBlocks.Proofs.Steps
import StyleBlocks.Proofs.Stylesheet.Places

/-!
# The numbers of rules

A text's rules are numbered from zero on without a gap.  The passes of a compilation take rules out,
and draw the numbers of the rules that they put in from the stylesheet's supply, so that no number is
given twice, wherever a rule stands and whether the compilation fails or not.

Main result: `parse_numbers`.
-/

namespace StyleBlocks

open List

mutual

/-- The numbers of the rules in a node at every depth, a rule's own behind those in it. -/
def numbersOfNode : Node → List Nat
  | .rule head body => numbersOf body ++ [head.id]
  | .group _ body => numbersOf body
  | _ => []

def numbersOf : List Node → List Nat
  | [] => []
  | node :: nodes => numbersOfNode node ++ numbersOf nodes

end

theorem numbersOf_eq_flatMap (nodes : List Node) : numbersOf nodes = nodes.flatMap numbersOfNode := by
  induction nodes with
  | nil => rw [numbersOf, flatMap_nil]
  | cons node nodes ih => rw [numbersOf, flatMap_cons, ih]

theorem numbersOf_append (l m : List Node) : numbersOf (l ++ m) = numbersOf l ++ numbersOf m := by
  simp only [numbersOf_eq_flatMap, flatMap_append]

theorem numbersOf_singleton (node : Node) : numbersOf [node] = numbersOfNode node := by
  rw [numbersOf, numbersOf, append_nil]

theorem numbersOf_declarations (ds : List Declaration) : numbersOf (ds.map .declaration) = [] := by
  simp [numbersOf_eq_flatMap, numbersOfNode]

/-! ## Texts -/

theorem numbersOf_numberNodes (n : Nat) (nodes : List Node) : n ≤ (numberNodes n nodes).2 ∧
    numbersOf (numberNodes n nodes).1 = Ico n (numberNodes n nodes).2 := by
  induction nodes using nodes_induct generalizing n with
  | nil => exact ⟨Nat.le_refl n, (Ico.self_empty).symm⟩
  | rule head body l ihbody ih =>
    obtain ⟨hle, hbody⟩ := ihbody n
    obtain ⟨hle', hl⟩ := ih ((numberNodes n body).2 + 1)
    refine ⟨Nat.le_trans (Nat.le_succ_of_le hle) hle', ?_⟩
    rw [numberNodes, numberNode, numbersOf, numbersOfNode, hbody, ← Ico.succ_top hle, hl,
      Ico.append_consecutive (Nat.le_succ_of_le hle) hle']
  | group head body l ihbody ih =>
    obtain ⟨hle, hbody⟩ := ihbody n
    obtain ⟨hle', hl⟩ := ih (numberNodes n body).2
    refine ⟨Nat.le_trans hle hle', ?_⟩
    rw [numberNodes, numberNode, numbersOf, numbersOfNode, hbody, hl, Ico.append_consecutive hle hle']
  | statement _ _ ih | declaration _ _ ih | comment _ _ _ ih => exact ih n

/-- **The rules of a text are numbered** from zero on, in the order in which they end. -/
theorem Stylesheet.numbersOf_parse {filename : Option String} {text : String} {sheet : Stylesheet}
    (h : Stylesheet.parse filename text = .ok sheet) :
    numbersOf sheet.nodes = range sheet.nextRule := by
  unfold Stylesheet.parse at h
  dsimp only at h
  split at h
  · cases h
  rename_i nodes _
  cases h
  rw [← Ico.zero_bot]
  exact (numbersOf_numberNodes 0 nodes).2

/-! ## Drawing numbers -/

/-- Rules with the numbers `new` are some of those with the numbers `old` and rules that have numbers
from `n` up to `n'`, each another one. -/
structure Draws (old : List Nat) (n : Nat) (new : List Nat) (n' : Nat) : Prop where
  le : n ≤ n'
  subperm : new.Subperm (old ++ List.Ico n n')

namespace Draws

variable {old mid new old' new' : List Nat} {n m k : Nat}

theorem of_sublist (h : new.Sublist old) (n : Nat) : Draws old n new n := by
  refine ⟨Nat.le_refl n, ?_⟩
  rw [Ico.self_empty, append_nil]
  exact h.subperm

theorem refl (old : List Nat) (n : Nat) : Draws old n old n :=
  of_sublist (Sublist.refl old) n

theorem of_perm (hle : n ≤ m) (h : new.Perm (old ++ Ico n m)) : Draws old n new m :=
  ⟨hle, h.subperm⟩

theorem trans (h : Draws old n mid m) (h' : Draws mid m new k) : Draws old n new k := by
  refine ⟨Nat.le_trans h.le h'.le, h'.subperm.trans ?_⟩
  rw [← Ico.append_consecutive h.le h'.le, ← append_assoc]
  exact (subperm_append_right _).2 h.subperm

theorem append (h : Draws old n new m) (h' : Draws old' m new' k) :
    Draws (old ++ old') n (new ++ new') k := by
  refine ⟨Nat.le_trans h.le h'.le, (h.subperm.append h'.subperm).trans (Perm.subperm ?_)⟩
  rw [← Ico.append_consecutive h.le h'.le]
  refine perm_iff_count.2 fun i => ?_
  simp only [count_append]
  omega

/-- **Different numbers stay different**, and the supply stays above them. -/
theorem nodup (h : Draws old n new m) (hold : old.Nodup) (hlt : ∀ i ∈ old, i < n) :
    new.Nodup ∧ ∀ i ∈ new, i < m := by
  obtain ⟨l, hperm, hsub⟩ := h.subperm
  have hle := h.le
  have hall : (old ++ Ico n m).Nodup := by
    refine nodup_append.2 ⟨hold, Ico.nodup n m, fun i hi j hj => ?_⟩
    have := (Ico.mem.1 hj).1
    have := hlt i hi
    omega
  refine ⟨hperm.nodup_iff.1 (hall.sublist hsub), fun i hi => ?_⟩
  rcases mem_append.1 (hsub.subset (hperm.mem_iff.2 hi)) with hi | hi
  · have := hlt i hi
    omega
  · exact (Ico.mem.1 hi).2

end Draws

/-! ## Settling -/

/-- A step of settling leaves the supply where it is or further on.  If it succeeds, the rules so far,
with the numbers `before`, and those that it makes have the numbers `numbers` of its result. -/
def SettleM.Numbers {α : Type} (before : List Nat) (x : SettleM α) (numbers : α → List Nat) : Prop :=
  ∀ s, s.nextRule ≤ (x.run s).2.nextRule ∧ ∀ a, (x.run s).1 = .ok a →
    numbers a = before ++ List.Ico s.nextRule (x.run s).2.nextRule

namespace SettleM.Numbers

variable {α β : Type} {before : List Nat} {numbers : α → List Nat} {x : SettleM α} {l : List α}

theorem of_leads (h : Leads (fun s t : SettleState => t.nextRule = s.nextRule) x)
    (before : List Nat) : Numbers before x fun _ => before := by
  intro s
  rw [h s]
  refine ⟨Nat.le_refl _, fun _ _ => ?_⟩
  rw [Ico.self_empty, append_nil]

theorem pure (a : α) (h : numbers a = before) : Numbers before (Pure.pure a : SettleM α) numbers := by
  intro s
  refine ⟨Nat.le_refl _, fun b hb => ?_⟩
  cases hb
  show numbers a = before ++ Ico s.nextRule s.nextRule
  rw [Ico.self_empty, append_nil, h]

theorem throw (e : BlockError) : Numbers before (MonadExcept.throw e : SettleM α) numbers := by
  intro s
  refine ⟨Nat.le_refl _, fun b hb => ?_⟩
  cases hb

theorem bind {f : α → SettleM β} {numbers' : β → List Nat} (hx : Numbers before x numbers)
    (hf : ∀ a, Numbers (numbers a) (f a) numbers') : Numbers before (x >>= f) numbers' := by
  intro s
  obtain ⟨hle, hok⟩ := hx s
  rw [run_bind]
  rcases hr : x.run s with ⟨e | a, t⟩ <;> rw [hr] at hle hok
  · refine ⟨hle, fun b hb => ?_⟩
    cases hb
  obtain ⟨hle', hok'⟩ := hf a t
  refine ⟨Nat.le_trans hle hle', fun b hb => ?_⟩
  rw [hok' b hb, hok a rfl, append_assoc]
  exact congrArg (before ++ ·) (Ico.append_consecutive hle hle')

theorem foldlM {f : β → α → SettleM β} {numbers : β → List Nat} {b : β} (hb : numbers b = before)
    (hf : ∀ b a, Numbers (numbers b) (f b a) numbers) : Numbers before (l.foldlM f b) numbers := by
  induction l generalizing b before with
  | nil => exact .pure b hb
  | cons a l ih =>
    exact (hb ▸ hf b a).bind fun b' => ih rfl

theorem mapM {f : α → SettleM (List Node)}
    (hf : ∀ a before, Numbers before (f a) fun nodes => before ++ numbersOf nodes) :
    Numbers before (l.mapM f) fun lists => before ++ numbersOf lists.flatten := by
  induction l generalizing before with
  | nil =>
    exact .pure [] (by simp [numbersOf])
  | cons a l ih =>
    rw [mapM_cons]
    refine (hf a before).bind fun nodes => ih.bind fun lists => .pure (nodes :: lists) ?_
    rw [flatten_cons, numbersOf_append, append_assoc]

end SettleM.Numbers

namespace Job

open SettleM

variable {c : Job} {rule : Rule} {q : Request} {selectors : List Selector} {own : List Declaration}
  {override : Bool} {before : List Nat}

theorem leads_rivalsFor (c : Job) (target : ObjectId) (property : String) :
    Leads (fun s t : SettleState => t.nextRule = s.nextRule) (c.rivalsFor target property) := by
  have hselectors : ∀ n rule, Leads (fun s t : SettleState => t.nextRule = s.nextRule)
      (c.targetSelectors n rule) := by
    intro n rule s
    refine Leads.bind_run (R := fun s t : SettleState => t.nextRule = s.nextRule) rfl
      fun _ _ hget => ?_
    cases hget
    generalize s.table.get n rule.toRuleHead = read
    obtain ⟨selectors, table⟩ := read
    cases selectors <;> rfl
  unfold rivalsFor
  split
  · exact .pure _
  refine .bind (.mapM fun r _ => ?_) fun _ => .pure _
  unfold rivalsOfRule
  dsimp only
  split
  · exact .pure _
  refine .bind (hselectors _ _) fun selectors => .bind (.mapM fun s _ => ?_) fun _ => .pure _
  cases c.rivalOf? target r.1 r.2 (valuesFor r.2 property) s with
  | error e => exact .throw e
  | ok rival => exact .pure rival

theorem numbersOf_wrapIn (conditions : List AtHead) (node : Node) :
    numbersOfNode (wrapIn conditions node) = numbersOfNode node := by
  induction conditions with
  | nil => rfl
  | cons head conditions ih =>
    show numbersOfNode (.group head [wrapIn conditions node]) = _
    rw [numbersOfNode, numbersOf_singleton, ih]

theorem numbers_emitRule (texts : List String) (values : List Declaration) (conditions : List AtHead) :
    Numbers before (emitRule rule q texts values conditions) fun node => before ++ numbersOfNode node := by
  intro s
  refine ⟨Nat.le_succ _, fun node hnode => ?_⟩
  cases hnode
  show before ++ numbersOfNode (wrapIn conditions _) = before ++ Ico s.nextRule (s.nextRule + 1)
  rw [numbersOf_wrapIn, numbersOfNode, Ico.succ_singleton]
  simp [numbersOf_eq_flatMap, numbersOfNode]

theorem numbers_settleRival (found : Clash × List Node) (m : Rival) :
    Numbers (before ++ numbersOf found.2) (c.settleRival rule q selectors own override found m)
      fun found => before ++ numbersOf found.2 := by
  unfold settleRival
  split
  · exact .throw _
  split
  · exact .pure _ rfl
  · refine (numbers_emitRule _ _ _).bind fun node => .pure _ ?_
    rw [numbersOf_append, numbersOf_singleton, append_assoc]

theorem numbers_settleLevels (targets : List ObjectId) (found : Clash) :
    Numbers before (c.settleLevels rule q selectors own override found targets)
      fun result => before ++ numbersOf result.2 := by
  induction targets generalizing found before with
  | nil => exact .pure _ (by rw [numbersOf, append_nil])
  | cons target targets ih =>
    refine (SettleM.Numbers.of_leads (c.leads_rivalsFor _ _) before).bind fun hits => ?_
    have hlevel : Numbers before
        (hits.foldlM (c.settleRival rule q selectors own override) (.noConflict, []))
        fun result => before ++ numbersOf result.2 :=
      .foldlM (by rw [numbersOf, append_nil]) numbers_settleRival
    refine hlevel.bind fun level => ?_
    dsimp only
    split
    · exact .pure _ rfl
    · refine (ih _).bind fun others => .pure _ ?_
      rw [numbersOf_append, append_assoc]

theorem numbers_settleRequest (q : Request) :
    Numbers before (c.settleRequest rule selectors q) fun nodes => before ++ numbersOf nodes := by
  unfold settleRequest
  dsimp only
  split
  · exact .throw _
  · exact .throw _
  refine (numbers_settleLevels _ _).bind fun result => ?_
  split
  · exact .throw _
  · exact .pure _ rfl

/-- **Settling a rule** numbers the new rules one after the other. -/
theorem numbers_settleRule (c : Job) (rule : Rule) : Numbers [] (c.settleRule rule) numbersOf := by
  unfold settleRule
  split
  · exact .throw _
  · exact .pure _ (by rw [numbersOf])
  refine fun s => (?_ : Numbers [] _ numbersOf) ⟨(c.selectors s.table rule.toRuleHead).2, s.nextRule⟩
  split
  · exact .throw _
  · exact (SettleM.Numbers.mapM fun q before => numbers_settleRequest q).bind
      fun lists => .pure _ rfl

theorem numbersOf_filter_isConcrete (body : List Node) :
    numbersOf (body.filter isConcrete) = numbersOf body := by
  induction body with
  | nil => rfl
  | cons node body ih =>
    cases hc : isConcrete node with
    | true => rw [filter_cons_of_pos hc, numbersOf, numbersOf, ih]
    | false =>
      rw [filter_cons_of_neg (by simp [hc]), numbersOf, ih]
      cases node with
      | declaration d => rfl
      | _ => cases hc

mutual

/-- **Settling draws the numbers of new rules**, whether it fails or not. -/
theorem draws_settleNode (c : Job) (s : SettleState) : (node : Node) →
    Draws (numbersOfNode node) s.nextRule (numbersOf (c.settleNode s node).result)
      (c.settleNode s node).state.nextRule
  | .rule head body => by
    obtain ⟨hle, hok⟩ := c.numbers_settleRule ⟨head, body⟩ s
    rw [settleNode]
    rcases hrun : (c.settleRule ⟨head, body⟩).run s with ⟨e | nodes, t⟩ <;> rw [hrun] at hle hok
    · exact ⟨hle, numbersOf_singleton _ ▸ (sublist_append_left _ _).subperm⟩
    refine .of_perm hle ?_
    show (numbersOf (.rule head (body.filter isConcrete) :: nodes.reverse)).Perm _
    have hnew : (numbersOf nodes.reverse).Perm (numbersOf nodes) := by
      simp only [numbersOf_eq_flatMap]
      exact nodes.reverse_perm.flatMap_right numbersOfNode
    rw [numbersOf, numbersOfNode, numbersOfNode, numbersOf_filter_isConcrete]
    exact (hnew.trans (Perm.of_eq (hok nodes rfl))).append_left _
  | .group head body => by
    rw [settleNode]
    split
    · rw [numbersOf_singleton]
      exact .refl _ _
    · rw [numbersOf_singleton]
      exact draws_settleNodes c s body
  | .statement _ | .declaration _ | .comment .. => .refl [] s.nextRule

theorem draws_settleNodes (c : Job) (s : SettleState) : (nodes : List Node) →
    Draws (numbersOf nodes) s.nextRule (numbersOf (c.settleNodes s nodes).result)
      (c.settleNodes s nodes).state.nextRule
  | [] => .refl _ _
  | node :: nodes => by
    have hnode := draws_settleNode c s node
    rw [settleNodes, numbersOf]
    split
    · rw [numbersOf_append]
      exact hnode.append (.refl _ _)
    · rw [numbersOf_append]
      exact hnode.append (draws_settleNodes c _ nodes)

end

end Job

/-! ## The other passes -/

theorem numbersOf_clearNodes (nodes : List Node) :
    (numbersOf (clearNodes nodes)).Sublist (numbersOf nodes) := by
  induction nodes using nodes_induct with
  | nil => exact Sublist.refl []
  | rule head body l ihbody ih =>
    rw [clearNodes, numbersOf_append, numbersOf, clearNode, clearRule]
    refine Sublist.append ?_ ih
    split
    · exact nil_sublist _
    rw [numbersOf_singleton, numbersOfNode, numbersOfNode]
    refine (Sublist.trans ?_ ihbody).append (Sublist.refl _)
    simp only [numbersOf_eq_flatMap]
    exact filter_sublist.flatMap numbersOfNode
  | group head body l ihbody ih =>
    rw [clearNodes, numbersOf_append, numbersOf, clearNode]
    refine Sublist.append ?_ ih
    split
    · exact nil_sublist _
    · rwa [numbersOf_singleton, numbersOfNode, numbersOfNode]
  | statement head l ih =>
    rw [clearNodes, clearNode]
    split <;> exact ih
  | declaration _ _ ih | comment _ _ _ ih => exact ih

theorem Job.numbersOf_debugNodes (c : Job) (printed : Printed) (nodes : List Node) :
    (numbersOf (c.debugNodes printed nodes).result).Sublist (numbersOf nodes) := by
  induction nodes generalizing printed with
  | nil => exact Sublist.refl []
  | cons node nodes ih =>
    rw [debugNodes]
    split
    · exact (Sublist.refl _).append (ih printed)
    rename_i head hhead
    split
    · exact Sublist.refl _
    rename_i left printed' hrun
    have hleft : numbersOf left = [] := by
      obtain ⟨⟨n, channel⟩, -, hrun⟩ := except_bind_ok hrun
      cases channel <;> cases hrun <;> rfl
    rw [numbersOf_append, hleft]
    exact (ih printed').trans (sublist_append_right _ _)

theorem RuleEdit.numbersOf_applyBody (e : RuleEdit) (body : List Node) :
    numbersOf (e.applyBody body) = numbersOf body := by
  unfold applyBody
  rw [numbersOf_append, numbersOf_append, numbersOf_declarations, numbersOf_declarations,
    append_nil, nil_append, numbersOf_eq_flatMap, numbersOf_eq_flatMap, flatMap_map]
  refine flatMap_congr fun node _ => ?_
  cases node <;> rfl

theorem numbersOf_editNodes {σ ε : Type} (f : Visit σ ε) (s : σ) (nodes : List Node) :
    numbersOf (editNodes f s nodes).result = numbersOf nodes := by
  induction nodes using nodes_induct generalizing s with
  | nil => rfl
  | rule head body l ihbody ih =>
    have hhead : ∀ e : RuleEdit, (e.applyHead head).id = head.id := fun _ => rfl
    rw [editNodes, editNode]
    dsimp only
    split <;> split <;> simp only [numbersOf, numbersOfNode, RuleEdit.numbersOf_applyBody, hhead,
      ihbody, ih]
  | group head body l ihbody ih =>
    rw [editNodes, editNode]
    dsimp only
    split <;> split <;> simp only [numbersOf, numbersOfNode, ihbody, ih]
  | statement _ _ ih | declaration _ _ ih | comment _ _ _ ih => exact ih s

/-! ## Compilation -/

/-- The pass takes rules out or puts rules with numbers of the supply in. -/
def Pass.Numbers (pass : Pass) : Prop :=
  ∀ k, Draws (numbersOf k.sheet.nodes) k.sheet.nextRule (numbersOf (pass k).1.sheet.nodes)
    (pass k).1.sheet.nextRule

theorem Pass.numbers_sequence {passes : List Pass} (h : ∀ pass ∈ passes, pass.Numbers) :
    (Pass.sequence passes).Numbers := by
  induction passes with
  | nil => exact fun k => .refl _ _
  | cons pass passes ih =>
    intro k
    have hfirst := h pass mem_cons_self k
    rw [sequence]
    rcases hpass : pass k with ⟨k', _ | e⟩ <;> rw [hpass] at hfirst
    · exact hfirst.trans (ih (fun p hp => h p (mem_cons_of_mem pass hp)) k')
    · exact hfirst

theorem Pass.numbers_ofVisit (f : Visit SelectorTable BlockError) : (Pass.ofVisit f).Numbers := by
  intro k
  show Draws _ _ (numbersOf (editNodes f k.table k.sheet.nodes).result) _
  rw [numbersOf_editNodes]
  exact .refl _ _

theorem Job.numbers_exportClasses (c : Job) : c.exportClasses.Numbers := by
  intro k
  refine .of_perm (Nat.le_succ _) (Perm.of_eq ?_)
  show numbersOf (k.sheet.nodes ++ [.rule _ _]) = _ ++ Ico _ (k.sheet.nextRule + 1)
  simp [numbersOf_eq_flatMap, numbersOfNode]

theorem draws_compile (g : Catalog) (options : Options) (n : Nat) (sheet : Stylesheet) :
    Draws (numbersOf sheet.nodes) sheet.nextRule
      (numbersOf (compile g options n sheet).1.sheet.nodes)
      (compile g options n sheet).1.sheet.nextRule := by
  refine Pass.numbers_sequence (fun pass hpass => ?_) { sheet := sheet }
  rcases mem_append.1 hpass with hpass | hpass
  · simp only [mem_cons, not_mem_nil, or_false] at hpass
    rcases hpass with rfl | rfl | rfl | rfl | rfl
    · exact fun k => .of_sublist (Job.numbersOf_debugNodes _ k.printed k.sheet.nodes) _
    · exact fun k => .of_sublist (numbersOf_clearNodes k.sheet.nodes) _
    · exact Pass.numbers_ofVisit _
    · exact Pass.numbers_ofVisit _
    · exact fun k => Job.draws_settleNodes _ ⟨k.table, k.sheet.nextRule⟩ k.sheet.nodes
  · split at hpass
    · rw [mem_singleton.1 hpass]
      exact Job.numbers_exportClasses _
    · cases hpass

/-- **The numbers of rules are different.**  The rules of a text, at every depth and those in
`@keyframes` as well, have the numbers from zero up to the next one, each once.  When the stylesheet was
compiled, with success or not, all rules in it have different numbers below the next one. -/
theorem Stylesheet.parse_numbers {filename : Option String} {text : String} {sheet : Stylesheet}
    (h : Stylesheet.parse filename text = .ok sheet) :
    numbersOf sheet.nodes = List.range sheet.nextRule ∧
    ∀ (g : Catalog) (options : Options) (n : Nat),
      (numbersOf (compile g options n sheet).1.sheet.nodes).Nodup ∧
      ∀ i ∈ numbersOf (compile g options n sheet).1.sheet.nodes,
        i < (compile g options n sheet).1.sheet.nextRule := by
  have hnumbers := Stylesheet.numbersOf_parse h
  refine ⟨hnumbers, fun g options n => (draws_compile g options n sheet).nodup ?_ fun i hi => ?_⟩
  · rw [hnumbers]
    exact List.nodup_range
  · rw [hnumbers] at hi
    exact List.mem_range.1 hi

/-- A rule among frames, and one in another rule. -/
def nestedFrames : String :=
  "@keyframes move \x7b from \x7b top: 0 \x7d \x7d .a \x7b .b \x7b top: 1px \x7d \x7d"

theorem Stylesheet.parse_numbers_nestedFrames : ∃ sheet,
    Stylesheet.parse none nestedFrames = .ok sheet ∧ sheet.nextRule = 3 ∧
    (compile .empty {} 0 sheet).2.isSome = true ∧ numbersOf sheet.nodes = List.range sheet.nextRule ∧
    ∀ (g : Catalog) (options : Options) (n : Nat),
      (numbersOf (compile g options n sheet).1.sheet.nodes).Nodup ∧
      ∀ i ∈ numbersOf (compile g options n sheet).1.sheet.nodes,
        i < (compile g options n sheet).1.sheet.nextRule := by
  have hparsed : (Stylesheet.parse none nestedFrames).toOption.any (fun sheet =>
      sheet.nextRule = 3 && (compile .empty {} 0 sheet).2.isSome) = true := by decide +kernel
  obtain ⟨sheet, hsheet, hcompile⟩ := (Option.any_eq_true _ _).1 hparsed
  have hparse := except_toOption_some hsheet
  rw [Bool.and_eq_true, decide_eq_true_eq] at hcompile
  exact ⟨sheet, hparse, hcompile.1, hcompile.2, Stylesheet.parse_numbers hparse⟩

end StyleBlocks
