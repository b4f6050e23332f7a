import StyleBlocks.Proofs.Catalog.Classes
import StyleBlocks.Proofs.Compilation.Stages
import StyleBlocks.Proofs.Session.Loading

/-!
# Resolutions in compiled stylesheets

Resolutions are put into every rule, but carried out and taken out only in rules that stand in no
other rule.  Hence a compiled stylesheet holds a resolution exactly where one was written or put
into a rule inside another one.

Main result: `isSettled_iff_nested`.
-/

namespace StyleBlocks

open List Token

/-- No declaration of the rule asks for a resolution. -/
def Rule.IsSettled (r : Rule) : Prop :=
  ∀ d ∈ r.declarations, d.asksResolution = false

/-- The resolutions that a rule is given. -/
def Job.injections (c : Job) (r : Rule) : List Declaration :=
  match Selector.parseList r.selector with
  | .ok selectors => c.injectionsFor r selectors
  | .error _ => []

/-! ## The `:export` rule -/

namespace Resolution

theorem parse_of_read {c : Char} {s : List Char} (hfiller : (read c s).1.isFiller = false)
    (h : ∀ name, (read c s).1 = .function name → inheritedOf? name = none) :
    parse (String.ofList (c :: s)) = .ok none := by
  have hfirst := Component.head?_group (Location.start.advance (c :: s))
    ⟨(read c s).1, consumed (c :: s) (read c s).2, .start⟩
    (Lexeme.list (Location.start.advance (consumed (c :: s) (read c s).2)) (read c s).2)
  have hparse : (Component.parse (c :: s)).1 = Component.group (Location.start.advance (c :: s))
      (⟨(read c s).1, consumed (c :: s) (read c s).2, .start⟩ ::
        Lexeme.list (Location.start.advance (consumed (c :: s) (read c s).2)) (read c s).2) := by
    rw [Component.parse, Lexeme.list]
  rw [← hparse] at hfirst
  unfold parse
  rw [String.toList_ofList]
  rcases hcs : (Component.parse (c :: s)).1 with _ | ⟨first, rest⟩
  · rfl
  rw [hcs, head?_cons, Option.map_some, Option.some.injEq] at hfirst
  have htoken : first.token = (read c s).1 := congrArg Lexeme.token hfirst
  have hkept : first.isFiller = false := by
    rw [Component.isFiller, htoken]
    exact hfiller
  rw [Import.significant, filter_cons_of_pos (by simp [hkept])]
  rcases first with l | ⟨l, bracket, body, stop, close⟩
  · rfl
  have hl : l.token = (read c s).1 := htoken
  dsimp only
  split
  · rename_i name hname
    rw [h name (hl ▸ hname)]
  · rfl

theorem inheritedOf?_of_infix {name : String} {x : Char} (hx : x = '_' ∨ x = '-')
    (h : [x, x] <:+: name.toList) : inheritedOf? name = none := by
  have hother : ∀ word : String, ¬[x, x] <:+: word.toList → word.toList.map Char.toLower = word.toList →
      sameIgnoringCase name word = false := by
    intro word hword hlower
    rw [sameIgnoringCase, beq_eq_false_iff_ne]
    intro he
    have hlist := congrArg String.toList he
    simp only [lowercase, String.toList_map] at hlist
    rw [hlower] at hlist
    have hinfix := h.map Char.toLower
    rw [hlist] at hinfix
    refine hword ?_
    rcases hx with rfl | rfl <;> exact hinfix
  unfold inheritedOf?
  have h₁ := hother "resolve" (by rcases hx with rfl | rfl <;> decide +kernel) (by decide +kernel)
  have h₂ := hother "resolve-inherited" (by rcases hx with rfl | rfl <;> decide +kernel)
    (by decide +kernel)
  simp [h₁, h₂]

theorem parse_classNames (g : Catalog) (id : ObjectId)
    (h : isIdentifier (g.block id.block).name = true) :
    parse (" ".intercalate (g.classNames id)) = .ok none := by
  obtain ⟨hstart, hall⟩ := isIdentifier_iff.1 h
  -- behind the block's name stands a blank, two hyphens or two underscores, or nothing
  obtain ⟨tail, htext, htail⟩ : ∃ tail, (" ".intercalate (g.classNames id)).toList
      = (g.block id.block).name.toList ++ tail ∧ (tail = [] ∨ (∃ t, tail = ' ' :: t) ∨
        ∃ x t, (x = '_' ∨ x = '-') ∧ tail = x :: x :: t) := by
    obtain ⟨others, hothers⟩ := g.exists_classNames_eq id
    have hmore : ∃ more, (" ".intercalate (g.classNames id)).toList
        = (g.block id.block).name.toList ++ ((g.pathTo id).classSuffix.toList ++ more) ∧
        (more = [] ∨ ∃ t, more = ' ' :: t) := by
      rw [hothers, Catalog.className, Block.className_eq]
      rcases others with _ | ⟨other, others⟩
      · exact ⟨[], by simp [Catalog.pathTo], .inl rfl⟩
      · simp [Catalog.pathTo, String.append_assoc]
    obtain ⟨more, htext, hmore⟩ := hmore
    refine ⟨_, htext, ?_⟩
    rcases (g.pathTo id).toList_classSuffix with hs | ⟨t, hs | hs⟩ <;> rw [hs]
    · exact hmore.imp_right .inl
    · exact .inr (.inr ⟨_, _, .inl rfl, rfl⟩)
    · exact .inr (.inr ⟨_, _, .inr rfl, rfl⟩)
  rcases hname : (g.block id.block).name.toList with _ | ⟨c, s⟩
  · exact absurd hname (toList_ne_nil_of_isIdentifier h)
  rw [hname] at hstart hall htext
  have hread : read c (s ++ tail) = readIdentLike (c :: s ++ tail) := by
    refine read_append_of_startsIdent hstart hall ?_
    rcases htail with rfl | ⟨t, rfl⟩ | ⟨x, t, rfl | rfl, rfl⟩ <;> simp
  rw [← String.ofList_toList (s := " ".intercalate (g.classNames id)), htext, cons_append]
  refine parse_of_read ?_ fun name hfunction => ?_
  · rw [hread]
    exact isFiller_readIdentLike _
  rw [hread] at hfunction
  have hends : ∀ t, EndsName t → t.head? ≠ some '(' → tail ≠ t := by
    rintro t ht hp rfl
    rw [readIdentLike_of_endsName hall ht hp] at hfunction
    cases hfunction
  have hlist := toList_of_readIdentLike_eq_function (Prod.ext hfunction rfl)
  rcases htail with rfl | ⟨t, rfl⟩ | ⟨x, t, hx, rfl⟩
  · exact absurd rfl (hends [] endsName_nil (by simp))
  · exact absurd rfl (hends (' ' :: t) (endsName_cons (by decide) (by decide) (by decide))
      (by simp))
  have hall' : ∀ d ∈ c :: s ++ [x, x], isNameChar d = true := by
    intro d hd
    rcases mem_append.1 hd with hd | hd
    · exact hall d hd
    · obtain rfl : d = x := by simpa using hd
      rcases hx with rfl | rfl <;> decide
  have hsplit : c :: s ++ x :: x :: t = (c :: s ++ [x, x]) ++ t := by simp
  rw [hsplit, readName_append _ _ hall'] at hlist
  exact inheritedOf?_of_infix hx ⟨c :: s, (readName t).1, hlist.symm⟩

end Resolution

theorem isSettled_exportNodes {g : Catalog} {n : Nat} (sheet : Stylesheet) (options : Options)
    (number : Nat) (hnumber : (g.block n).number = n)
    (hname : isIdentifier (g.block n).name = true) :
    nestedRules (exportNodes (g.job n sheet) options number) = [] ∧
      ∀ r ∈ outerRules (exportNodes (g.job n sheet) options number), r.IsSettled := by
  unfold exportNodes
  split
  · rw [nestedRules_rule, outerRules_rule, rulesOf_declarations]
    refine ⟨rfl, fun r hr d hd => ?_⟩
    rw [mem_singleton.1 hr, Rule.declarations, filterMap_declarations] at hd
    obtain ⟨e, he, rfl⟩ := mem_map.1 hd
    obtain ⟨id, hid, rfl⟩ := mem_map.1 he
    have hblock : id.block = n := by
      obtain ⟨i, -, hi⟩ := mem_flatMap.1 hid
      split at hi
      · split at hi
        · cases hi
        · obtain ⟨j, -, rfl⟩ := mem_map.1 hi
          exact hnumber
      · cases hi
    have hparse := Resolution.parse_classNames g id (hblock ▸ hname)
    have hasks : ∀ d : Declaration, Resolution.parse d.value = .ok none →
        d.asksResolution = false := by
      intro d hd
      rw [Declaration.asksResolution, hd]
    exact hasks _ hparse
  · exact ⟨rfl, by simp⟩

/-! ## Compiled stylesheets -/

theorem Emission.IsConcrete.isSettled {e : Emission} (h : e.IsConcrete) {r : Rule}
    (hr : e.IsRule r) : r.IsSettled := by
  obtain ⟨number, place, settled, rfl⟩ := hr
  intro d hd
  have hbody : (e.toRule number place settled).declarations
      = e.values.map fun d => { d with location := settled } := by
    rw [← filterMap_declarations (e.values.map fun d => { d with location := settled }), map_map]
    rfl
  rw [hbody] at hd
  obtain ⟨d', hd', rfl⟩ := mem_map.1 hd
  exact h.values d' hd'

theorem Job.SettledTo.isSettled {c : Job} {r : Rule} {l : List Rule} (h : c.SettledTo r l) :
    ∀ r' ∈ l, r'.IsSettled := by
  obtain ⟨emitted, hemitted, rfl⟩ := h
  intro r' hr'
  rcases mem_cons.1 hr' with rfl | hr'
  · intro d hd
    obtain ⟨node, hnode, hd⟩ := mem_filterMap.1 hd
    have hconcrete := (mem_filter.1 hnode).2
    cases node with
    | declaration d' =>
      cases hd
      simpa [isConcrete] using hconcrete
    | _ => cases hd
  · obtain ⟨e, he, hrule⟩ := exists_left_of_forall₂ hemitted (mem_reverse.1 hr')
    exact (mem_emissionsOf he).isSettled hrule

theorem Job.CompiledTo.isSettled_iff {c : Job} {r r' : Rule} {selectors compiled : List Selector}
    (h : c.CompiledTo r r' selectors compiled) : r'.IsSettled ↔
      r.IsSettled ∧ ∀ d ∈ c.injections r, d.asksResolution = false := by
  unfold Rule.IsSettled injections
  rw [h.declarations, h.parse, forall_mem_append, and_comm]

/-- **What is left of resolutions.**  In a compiled stylesheet no rule that stands in no other one
asks for a resolution.  None asks for one at all exactly if the rules that stand in other ones
neither ask for a resolution nor are given one. -/
theorem isSettled_iff_nested {s : Session} (hs : s.Reachable) {n : Nat} {sheet out : Stylesheet}
    (hsheet : (s.catalog.block n).stylesheet = some sheet) (hout : (s.compile n).1 = .ok out) :
    (∀ r ∈ outerRules out.nodes, r.IsSettled) ∧
      ((∀ r ∈ out.rules, r.IsSettled) ↔ ∀ r ∈ nestedRules (clearNodes sheet.nodes),
        r.IsSettled ∧ ∀ d ∈ (s.catalog.job n sheet).injections r, d.asksResolution = false) := by
  obtain ⟨k, hk, rfl⟩ := Session.exists_of_compile hsheet hout
  have hcomplete := Block.isComplete_of_stylesheet hsheet
  have hblock := hs.sound.soundAt n sheet hsheet
  obtain ⟨compiled, state, hwalk, hsound, herror, number, hnodes⟩ := compile_ok hk
  obtain ⟨-, hnested, lists, hlists, houter⟩ := Job.settlesRules_settleNodes hsound compiled herror
  obtain ⟨hexportNested, hexport⟩ := isSettled_exportNodes sheet s.library.options number
    (hs.sound.number n (Catalog.lt_of_isComplete hcomplete)) hblock.name
  have hnested : nestedRules k.sheet.nodes = nestedRules compiled := by
    rw [hnodes, nestedRules_append, hnested]
    exact (congrArg _ hexportNested).trans (List.append_nil _)
  have houter : ∀ r ∈ outerRules k.sheet.nodes, r.IsSettled := by
    intro r hr
    rw [hnodes, outerRules_append, List.mem_append, houter] at hr
    rcases hr with hr | hr
    · obtain ⟨l, hl, hr⟩ := List.mem_flatten.1 hr
      obtain ⟨r₀, -, hsettled⟩ := exists_left_of_forall₂ hlists hl
      exact hsettled.isSettled r hr
    · exact hexport r hr
  refine ⟨houter, fun h r hr => ?_, fun h r hr => ?_⟩
  · obtain ⟨⟨place, r'⟩, hr', hplace, selectors, _, hcompiled⟩ :=
      exists_right_of_forall₂ hwalk (mem_nestedRules.1 hr)
    obtain rfl : true = place := hplace
    refine hcompiled.isSettled_iff.1 (h r' (mem_rulesOf_iff_outer_or_nested.2 (.inr ?_)))
    rw [hnested]
    exact mem_nestedRules.2 hr'
  · rcases mem_rulesOf_iff_outer_or_nested.1 hr with hr | hr
    · exact houter r hr
    · rw [hnested] at hr
      obtain ⟨⟨place, r₀⟩, hr₀, hplace, selectors, _, hcompiled⟩ :=
        exists_left_of_forall₂ hwalk (mem_nestedRules.1 hr)
      obtain rfl : place = true := hplace
      exact hcompiled.isSettled_iff.2 (h r₀ (mem_nestedRules.2 hr₀))

/-- A block with a rule inside a rule, which overrides a class of the block that it extends. -/
def nestedOverride : Session :=
  .ofFiles [("base.css", ".a \x7b color: red \x7d"),
    ("child.css", "@block-reference base from \"base.css\"; :scope \x7b extends: base \x7d " ++
      ".b \x7b .a \x7b color: red \x7d \x7d")] ["child.css"]

theorem nestedOverride_asksResolution : (nestedOverride.compile 0).1.toOption.any (fun out =>
    out.rules.any fun r => r.declarations.any Declaration.asksResolution) = true := by
  decide +kernel

theorem isSettled_iff_nested_nestedOverride : ∃ sheet out,
    (nestedOverride.catalog.block 0).stylesheet = some sheet ∧
    (nestedOverride.compile 0).1 = .ok out ∧ (∀ r ∈ outerRules out.nodes, r.IsSettled) ∧
    ((∀ r ∈ out.rules, r.IsSettled) ↔ ∀ r ∈ nestedRules (clearNodes sheet.nodes), r.IsSettled ∧
      ∀ d ∈ (nestedOverride.catalog.job 0 sheet).injections r, d.asksResolution = false) := by
  obtain ⟨sheet, out, hsheet, hout, -⟩ :=
    Session.exists_of_compile_any nestedOverride_asksResolution
  exact ⟨sheet, out, hsheet, hout,
    isSettled_iff_nested (Session.reachable_ofFiles _ _) hsheet hout⟩

/-- A resolution that a rule inside a rule is given is still there in the end. -/
theorem nestedOverride_not_isSettled : ∃ out, (nestedOverride.compile 0).1 = .ok out ∧
    ∃ r ∈ out.rules, ¬r.IsSettled := by
  obtain ⟨-, out, -, hout, hasks⟩ := Session.exists_of_compile_any nestedOverride_asksResolution
  simp only [List.any_eq_true] at hasks
  obtain ⟨r, hr, d, hd, hask⟩ := hasks
  refine ⟨out, hout, r, hr, fun hsettled => ?_⟩
  rw [hsettled d hd] at hask
  cases hask

end StyleBlocks
