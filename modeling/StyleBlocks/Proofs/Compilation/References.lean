import StyleBlocks.Proofs.Compilation.Stages
import StyleBlocks.Proofs.ObjectPath
import StyleBlocks.Proofs.Session.Loading

/-!
# What the references of resolutions mean

A resolution of an inherited conflict names the overridden object by a text: the name of the object's
block and the object's path.  The text is read again when the conflict is settled, and the name is
looked for among the references first.

Main result: `injected_reference_iff`.
-/

namespace StyleBlocks

open List

variable {b : Block} {conflict : InheritedConflict} {e : Declaration} {name : String}
  {p : ObjectPath} {s : Selector}

/-! ## Resolutions are read back -/

/-- The character stands for itself between double quotes. -/
def IsVerbatim (c : Char) : Prop :=
  c ≠ '"' ∧ isNewline c = false ∧ c ≠ '\\' ∧ c ≠ '\x00'

theorem isVerbatim_of_isNameChar {c : Char} (h : isNameChar c = true) : IsVerbatim c := by
  refine ⟨?_, ?_, ne_backslash_of_isNameChar h, ne_nul_of_isNameChar h⟩
  · rintro rfl
    revert h
    decide
  by_contra hc
  rw [Bool.not_eq_false, isNewline] at hc
  simp only [Bool.or_eq_true, beq_iff_eq] at hc
  rcases hc with (rfl | rfl) | rfl <;> revert h <;> decide

theorem readString_of_isVerbatim {s : List Char} (h : ∀ c ∈ s, IsVerbatim c) (rest : List Char) :
    readString '"' (s ++ '"' :: rest) = (false, s, rest) := by
  induction s with
  | nil => rw [List.nil_append, readString, if_pos (by simp)]
  | cons c s ih =>
    obtain ⟨hquote, hnewline, hbackslash, hnul⟩ := h c (by simp)
    rw [List.cons_append, readString, if_neg (by simpa using hquote), if_neg (by simp [hnewline]),
      if_neg (by simpa using hbackslash), ih fun d hd => h d (by simp [hd])]
    simp [hnul]

/-- **A reference that needs no escape is read back** from the resolution that is made of it. -/
theorem Resolution.parse_inherited {reference : String}
    (h : ∀ c ∈ reference.toList, IsVerbatim c) :
    Resolution.parse ("resolve-inherited(\"" ++ reference ++ "\")") = .ok (some ⟨true, reference⟩) := by
  have hfunction : ∀ rest, Token.read 'r' ("esolve-inherited(".toList ++ rest)
      = (.function "resolve-inherited", rest) := by
    intro rest
    have hall : ∀ c ∈ "resolve-inherited".toList, isNameChar c = true :=
      all_eq_true.1 (by decide)
    have hends : EndsName ('(' :: rest) := endsName_cons (by decide) (by decide) (by decide)
    have hread : Token.read 'r' ("esolve-inherited".toList ++ '(' :: rest)
        = readIdentLike ("resolve-inherited".toList ++ '(' :: rest) :=
      read_append_of_startsIdent (by decide) hall (by simp)
    have hsplit : "esolve-inherited(".toList ++ rest = "esolve-inherited".toList ++ '(' :: rest := rfl
    rw [hsplit, hread, readIdentLike, readName_append_of_endsName hall hends]
    rfl
  have hstring : Token.read '"' (reference.toList ++ ['"', ')']) = (.string reference, [')']) := by
    have hread : Token.read '"' (reference.toList ++ ['"', ')'])
        = readQuoted '"' (reference.toList ++ ['"', ')']) := rfl
    rw [hread, readQuoted, readString_of_isVerbatim h]
    simp
  have hclose : Token.read ')' [] = (.closer .round, []) := rfl
  have hlexemes : ∃ l m close, Lexeme.list .start
      ("resolve-inherited(\"" ++ reference ++ "\")").toList = l :: ([m] ++ [close]) ∧
      l.token = .function "resolve-inherited" ∧ m.token = .string reference ∧
      close.token = .closer .round := by
    have htext : ("resolve-inherited(\"" ++ reference ++ "\")").toList
        = 'r' :: ("esolve-inherited(".toList ++ '"' :: (reference.toList ++ ['"', ')'])) := by
      simp
    rw [htext, Lexeme.list_cons (w := "resolve-inherited(".toList) (hfunction _) rfl,
      Lexeme.list_cons (w := '"' :: (reference.toList ++ ['"'])) hstring (by simp),
      Lexeme.list_cons (w := [')']) hclose rfl, Lexeme.list]
    exact ⟨_, _, _, rfl, rfl, rfl, rfl⟩
  obtain ⟨l, m, close, hlist, hl, hm, hclose⟩ := hlexemes
  have hgroup := Component.group_block (Location.start.advance
    ("resolve-inherited(\"" ++ reference ++ "\")").toList) [] [m] (by simp)
    (by rw [hl]; rfl) (by simp [hm, Token.opens, Token.closes]) hclose
  rw [nil_append] at hgroup
  unfold Resolution.parse Component.parse
  dsimp only
  rw [hlist, hgroup]
  have hinherited : inheritedOf? "resolve-inherited" = some true := by decide +kernel
  simp [Import.significant, Component.isFiller, Component.token, Component.lexeme, hl, hm,
    Token.isFiller, hinherited, Import.string?]

theorem ObjectPath.isVerbatim_name_render (hblock : p.block = none)
    (hname : isIdentifier name = true) (hp : p.namesAreIdentifiers = true) :
    ∀ c ∈ (name ++ p.render).toList, IsVerbatim c := by
  have hident : ∀ text, isIdentifier text = true → ∀ c ∈ text.toList, IsVerbatim c :=
    fun text h c hc => isVerbatim_of_isNameChar ((isIdentifier_iff.1 h).2 c hc)
  have hmark : ∀ c ∈ ['.', '[', '|', '=', ']', ':'], IsVerbatim c := by
    simp [IsVerbatim, isNewline]
  intro c hc
  rw [String.toList_append, mem_append] at hc
  rcases hc with hc | hc
  · exact hident name hname c hc
  by_cases hroot : p = root
  · subst hroot
    have hall : ∀ c ∈ "scope".toList, isNameChar c = true := all_eq_true.1 (by decide)
    rcases mem_cons.1 (show c ∈ ':' :: "scope".toList from hc) with rfl | hc
    · exact hmark ':' (by simp)
    · exact isVerbatim_of_isNameChar (hall c hc)
  rw [toList_render hroot, mem_append] at hc
  rcases hc with hc | hc
  · have hids := namesAreIdentifiers_iff.1 ⟨by rw [hblock]; rfl, hp⟩
    obtain ⟨q, hq, hc⟩ := mem_flatMap.1 hc
    cases q with
    | mark m =>
      rw [mem_singleton.1 hc]
      exact hmark m (mem_append_left [']', ':'] (mem_of_mark_mem hq))
    | name text | value text => exact hident text (hids _ hq text rfl) c hc
  · unfold closing at hc
    split at hc
    · exact hmark c (by simp_all)
    · cases hc

theorem ObjectPath.follows_render (hblock : p.block = none) : Follows p.render.toList := by
  obtain ⟨block, className, state⟩ := p
  obtain rfl : block = none := hblock
  cases className with
  | some name =>
    simp only [render, String.toList_append]
    exact follows_mark (c := '.') (by decide) _
  | none =>
    rcases state with _ | ⟨_ | group, state⟩
    · exact follows_mark (c := ':') (by decide) _
    all_goals
      simp only [render, StateName.render, Option.map_some, Option.getD_some, String.toList_append]
      exact follows_mark (c := '[') (by decide) _

/-! ## Where resolutions come from -/

namespace Job

variable {c : Job}

/-- The value that resolves a conflict with an overridden object. -/
def resolutionTo (c : Job) (t : ObjectId) : String :=
  "resolve-inherited(\"" ++ c.referenceTo t ++ "\")"

theorem block_of_keyObject? (h : c.catalog.Orderly c.block) {x : ObjectId}
    (hx : c.keyObject? s = some x) : x.block = c.block := by
  have hx : (c.catalog.block c.block).keyObject? s = some x := hx
  obtain ⟨_, _, -, -, hfind⟩ := Block.keyObject?_eq_some.1 hx
  exact (Block.pathTo_of_find? h.wellFormed hfind).1.trans h.number

theorem mem_found_addDeclaration {explicit : List String} {i : Injections} {d : Declaration}
    (h : e ∈ (i.addDeclaration explicit conflict d).found) :
    e ∈ i.found ∨ e.value = conflict.value := by
  unfold Injections.addDeclaration at h
  split at h
  · exact .inl h
  split at h
  · exact .inl h
  rcases mem_append.1 h with h | h
  · exact .inl h
  · rw [mem_singleton.1 h]
    exact .inr rfl

/-- **Every resolution that is put into a rule stands for an object that the key of one of the rule's
selectors overrides.** -/
theorem mem_injectionsFor {r : Rule} {selectors : List Selector}
    (h : e ∈ c.injectionsFor r selectors) : ∃ s ∈ selectors, ∃ x t, c.keyObject? s = some x ∧
      c.catalog.overridden? x = some t ∧ e.value = c.resolutionTo t := by
  revert h
  refine foldlRecOn (motive := fun i : Injections => e ∈ i.found → _) _ _ nofun
    fun i hi conflict hconflict => ?_
  refine foldlRecOn (motive := fun i : Injections => e ∈ i.found → _) _ _ hi fun i hi d _ he => ?_
  rcases mem_found_addDeclaration he with he | hvalue
  · exact hi he
  obtain ⟨s, hs, hconflict⟩ := mem_filterMap.1 hconflict
  obtain ⟨x, hx, hconflict⟩ := Option.bind_eq_some_iff.1 hconflict
  obtain ⟨t, ht, hconflict⟩ := Option.bind_eq_some_iff.1 hconflict
  cases hconflict
  exact ⟨s, hs, x, t, hx, ht, hvalue⟩

end Job

/-! ## Names of blocks -/

/-- No reference of the block leads from its name for the block of `t` to another object. -/
def Job.IsUnshadowed (c : Job) (t : ObjectId) : Prop :=
  ∀ target, (c.catalog.block c.block).reference? (c.nameOf t.block) = some target →
    c.catalog.find? target (c.catalog.pathTo t) = some t

theorem Block.reference?_of_nameFor? {target : Nat} (h : b.nameFor? target = some name) :
    ∃ target', b.reference? name = some target' := by
  obtain ⟨⟨name', target'⟩, hfind, rfl⟩ := Option.map_eq_some_iff.1 h
  exact SortedMap.exists_find?_of_mem (mem_of_find?_eq_some hfind)

theorem Block.NamesReadable.className_pathTo (h : b.NamesReadable) (i : Nat) :
    (b.pathTo i).className ≠ some "root" := by
  have howner : ∀ j, (b.ownerPath j).className ≠ some "root" := by
    intro j
    unfold ownerPath
    split
    · rename_i s hs
      split
      · rename_i hk
        simpa using (h s (mem_of_getElem? hs)).2.2 hk
      · simp [ObjectPath.root]
    · simp [ObjectPath.root]
  unfold pathTo
  split
  · split <;> exact howner _
  · simp [ObjectPath.root]

namespace Workspace.Sound

variable {loading : List String} {w : Workspace} {n : Nat} {t : ObjectId} {path : ObjectPath}

theorem of_find? (h : w.Sound loading) (hn : (w.catalog.block n).IsComplete)
    (ht : w.catalog.find? n path = some t) (hpath : path.block = none) :
    w.catalog.Holds t ∧ w.catalog.pathTo t = path := by
  obtain ⟨m, hm, hfind⟩ := exists_of_findSome?_eq_some ht
  have hcomplete := h.isComplete_of_mem hn hm
  obtain ⟨rfl, hi, hpath⟩ := (h.orderly hcomplete).find? hfind hpath
  exact ⟨⟨hcomplete, hi⟩, hpath⟩

theorem of_named? (h : w.Sound loading) (hn : (w.catalog.block n).IsComplete)
    (ht : w.catalog.named? n path = some t) :
    w.catalog.Holds t ∧ w.catalog.pathTo t = path.toLocal := by
  unfold Catalog.named? at ht
  split at ht
  · rename_i hblock
    have hlocal : path.toLocal = path := by rw [ObjectPath.toLocal, ← hblock]
    rw [hlocal]
    exact h.of_find? hn ht hblock
  split at ht
  · rename_i target htarget
    obtain ⟨sheet, hsheet⟩ := Option.isSome_iff_exists.1 hn
    have hcomplete := ((h.soundAt n sheet hsheet).grounded.of_linksTo
      (.reference _ (SortedMap.mem_of_find? htarget))).isComplete
    exact h.of_find? hcomplete ht rfl
  · obtain ⟨m, hm, hfind⟩ := Option.bind_eq_some_iff.1 ht
    exact h.of_find? (h.isComplete_of_mem hn (mem_of_find?_eq_some hm)) hfind rfl

theorem find?_pathTo (h : w.Sound loading) (ht : w.catalog.Holds t) :
    w.catalog.find? t.block (w.catalog.pathTo t) = some t := by
  have hown := (h.orderly ht.isComplete).wellFormed.find t.index ht.lt
  rw [(h.orderly ht.isComplete).number] at hown
  rw [Catalog.find?, findSome?_cons, Catalog.pathTo, hown]

/-- **The name that a block has for another one names its objects**, unless the name is the other
block's own and a reference takes it. -/
theorem named?_pathTo_iff (h : w.Sound loading) (hn : (w.catalog.block n).IsComplete)
    (ht : t.block ∈ w.catalog.ancestors n)
    (hi : t.index < (w.catalog.block t.block).objects.length) {file : Option String} :
    w.catalog.named? n { w.catalog.pathTo t with
        block := some ((⟨w.catalog, n, file⟩ : Job).nameOf t.block) } = some t ↔
      (⟨w.catalog, n, file⟩ : Job).IsUnshadowed t := by
  have hcomplete := (h.chain hn).2 t.block ht
  have hlocal : ∀ name, ({ w.catalog.pathTo t with block := some name } : ObjectPath).toLocal
      = w.catalog.pathTo t := by
    intro name
    have hblock : (w.catalog.pathTo t).block = none := Block.block_pathTo t.index
    rw [ObjectPath.toLocal, ← hblock]
  unfold Catalog.named? Job.IsUnshadowed
  simp only [hlocal]
  cases hreference : (w.catalog.block n).reference? ((⟨w.catalog, n, file⟩ : Job).nameOf t.block) with
  | some target => simp
  | none =>
    -- no reference has the name, so it is the block's own, and no other block of the chain has it
    have hname : (⟨w.catalog, n, file⟩ : Job).nameOf t.block = (w.catalog.block t.block).name := by
      unfold Job.nameOf at hreference ⊢
      cases hfor : (w.catalog.block n).nameFor? t.block with
      | none => rfl
      | some name =>
        obtain ⟨target, htarget⟩ := Block.reference?_of_nameFor? hfor
        rw [hfor, Option.getD_some, htarget] at hreference
        cases hreference
    have hfind : ((n :: w.catalog.ancestors n).find? fun m =>
        (w.catalog.block m).name == (w.catalog.block t.block).name) = some t.block := by
      cases hm : (n :: w.catalog.ancestors n).find? fun m =>
          (w.catalog.block m).name == (w.catalog.block t.block).name with
      | none => simpa using find?_eq_none.1 hm t.block (mem_cons_of_mem n ht)
      | some m =>
        have hmem := h.isComplete_of_mem hn (mem_of_find?_eq_some hm)
        have hequal := find?_some hm
        rw [h.eq_of_name hmem hcomplete (beq_iff_eq.1 hequal)]
    rw [hname, hfind]
    simpa using h.find?_pathTo ⟨hcomplete, hi⟩

end Workspace.Sound

/-! ## Injected references -/

theorem Workspace.Sound.eq_of_named? {loading : List String} {w : Workspace} (h : w.Sound loading)
    {n : Nat} (hn : (w.catalog.block n).IsComplete) {t : ObjectId} {path : ObjectPath}
    (ht : w.catalog.named? n path = some t) (hname : path.block = some name) :
    path = { w.catalog.pathTo t with block := some name } := by
  rw [(h.of_named? hn ht).2, ObjectPath.toLocal, ← hname]

/-- The reference to `t` is read back from a resolution, and it means `t`. -/
def Job.ReadsBack (c : Job) (t : ObjectId) : Prop :=
  Resolution.parse (c.resolutionTo t) = .ok (some ⟨true, c.referenceTo t⟩) ∧
    c.catalog.lookup c.block (c.referenceTo t) = some t

/-- **When an injected reference means the overridden object.**  Every resolution that is put into a
rule stands for an object `t` that an object of the block overrides.  Where the block's name for the
block of `t` is an identifier, the reference is read back and means `t` exactly if the names in the
path of `t` are identifiers and no reference of that name leads to another object.  A name that is
no identifier is never read back: if the text means `t` at all, it does so by another name. -/
theorem injected_reference_iff {s : Session} (hs : s.Reachable) {n : Nat} {sheet : Stylesheet}
    (hsheet : (s.catalog.block n).stylesheet = some sheet) {r : Rule} {selectors : List Selector}
    {d : Declaration} (hd : d ∈ (s.catalog.job n sheet).injectionsFor r selectors) :
    ∃ key ∈ selectors, ∃ x t, (s.catalog.job n sheet).keyObject? key = some x ∧
      s.catalog.overridden? x = some t ∧ d.value = (s.catalog.job n sheet).resolutionTo t ∧
      (isIdentifier ((s.catalog.job n sheet).nameOf t.block) = true →
        ((s.catalog.job n sheet).ReadsBack t ↔
          (s.catalog.pathTo t).namesAreIdentifiers = true ∧
            (s.catalog.job n sheet).IsUnshadowed t)) ∧
      (isIdentifier ((s.catalog.job n sheet).nameOf t.block) = false →
        ∀ path, ObjectPath.parse ((s.catalog.job n sheet).referenceTo t) = .ok path →
          s.catalog.named? n path = some t →
          path.block ≠ some ((s.catalog.job n sheet).nameOf t.block)) := by
  have hn := Block.isComplete_of_stylesheet hsheet
  obtain ⟨key, hkey, x, t, hx, ht, hvalue⟩ := Job.mem_injectionsFor hd
  refine ⟨key, hkey, x, t, hx, ht, hvalue, ?_⟩
  obtain rfl : x.block = n := Job.block_of_keyObject? (hs.sound.orderly hn) hx
  obtain ⟨hblock, hi, -⟩ := hs.sound.overridden hn ht
  have hlocal : (s.catalog.pathTo t).block = none := Block.block_pathTo t.index
  have hclass : (s.catalog.pathTo t).className ≠ some "root" :=
    (hs.sound.namesReadable ((hs.sound.chain hn).2 _ hblock)).className_pathTo t.index
  have hread : ObjectPath.parse ((s.catalog.job x.block sheet).referenceTo t) = .ok
        { s.catalog.pathTo t with block := some ((s.catalog.job x.block sheet).nameOf t.block) } ↔
      isIdentifier ((s.catalog.job x.block sheet).nameOf t.block) = true ∧
        (s.catalog.pathTo t).namesAreIdentifiers = true :=
    ObjectPath.parse_name_render_iff hlocal hclass
  have hnamed : s.catalog.named? x.block { s.catalog.pathTo t with
        block := some ((s.catalog.job x.block sheet).nameOf t.block) } = some t ↔
      (s.catalog.job x.block sheet).IsUnshadowed t :=
    hs.sound.named?_pathTo_iff hn hblock hi
  refine ⟨fun hname => ⟨?_, ?_⟩, fun hname path hpath hmeans hpathBlock => ?_⟩
  · rintro ⟨-, hlookup⟩
    obtain ⟨path, hpath, hmeans⟩ := Option.bind_eq_some_iff.1 hlookup
    have hparse := except_toOption_some hpath
    have hpathBlock := ObjectPath.block_of_parse hname (ObjectPath.follows_render hlocal) hparse
    obtain rfl := hs.sound.eq_of_named? hn hmeans hpathBlock
    exact ⟨(hread.1 hparse).2, hnamed.1 hmeans⟩
  · rintro ⟨hnames, hunshadowed⟩
    refine ⟨Resolution.parse_inherited (ObjectPath.isVerbatim_name_render hlocal hname hnames), ?_⟩
    refine Option.bind_eq_some_iff.2 ⟨_, ?_, hnamed.2 hunshadowed⟩
    exact congrArg Except.toOption (hread.2 ⟨hname, hnames⟩)
  · rw [hs.sound.eq_of_named? hn hmeans hpathBlock] at hpath
    exact absurd (hread.1 hpath).1 (by simp [hname])

/-- A block that extends another one by way of a third, and has a reference with the name of the
other one. -/
def shadowedName : Session :=
  .ofFiles [("c.css", ":scope \x7b block-name: foo \x7d .x \x7b color: red \x7d"),
    ("m.css", "@block-reference c from \"c.css\"; :scope \x7b extends: c \x7d"),
    ("o.css", ".x \x7b color: black \x7d"),
    ("b.css", "@block-reference m from \"m.css\"; @block-reference foo from \"o.css\"; " ++
      ":scope \x7b extends: m \x7d .x \x7b color: blue \x7d")] ["b.css"]

/-- The class `.x` of the first block overrides that of the third one.  It is told so by the name
`foo`, which leads it to the fourth block. -/
theorem shadowedName_injects : ∃ sheet, (shadowedName.catalog.block 0).stylesheet = some sheet ∧
    ∃ r ∈ sheet.rules, ∃ selectors, Selector.parseList r.selector = .ok selectors ∧
      ∃ d ∈ (shadowedName.catalog.job 0 sheet).injectionsFor r selectors, ∃ key ∈ selectors,
        (shadowedName.catalog.job 0 sheet).keyObject? key = some ⟨0, 1⟩ ∧
        shadowedName.catalog.overridden? ⟨0, 1⟩ = some ⟨2, 1⟩ ∧
        d.value = (shadowedName.catalog.job 0 sheet).resolutionTo ⟨2, 1⟩ ∧
        shadowedName.catalog.lookup 0 ((shadowedName.catalog.job 0 sheet).referenceTo ⟨2, 1⟩)
          = some ⟨3, 1⟩ := by
  have hrun : (shadowedName.catalog.block 0).stylesheet.any (fun sheet =>
      sheet.rules.any fun r => (Selector.parseList r.selector).toOption.any fun selectors =>
        ((shadowedName.catalog.job 0 sheet).injectionsFor r selectors).any fun d =>
          selectors.any fun key =>
            (shadowedName.catalog.job 0 sheet).keyObject? key == some ⟨0, 1⟩ &&
            (shadowedName.catalog.overridden? ⟨0, 1⟩ == some ⟨2, 1⟩ &&
            (d.value == (shadowedName.catalog.job 0 sheet).resolutionTo ⟨2, 1⟩ &&
            shadowedName.catalog.lookup 0
              ((shadowedName.catalog.job 0 sheet).referenceTo ⟨2, 1⟩) == some ⟨3, 1⟩))) = true := by
    decide +kernel
  simp only [Option.any_eq_true, any_eq_true, Bool.and_eq_true, beq_iff_eq] at hrun
  obtain ⟨sheet, hsheet, r, hr, selectors, hselectors, d, hd, key, hkey, hrun⟩ := hrun
  exact ⟨sheet, hsheet, r, hr, selectors, except_toOption_some hselectors, d, hd, key, hkey, hrun⟩

theorem injected_reference_iff_shadowedName : ∃ sheet,
    (shadowedName.catalog.block 0).stylesheet = some sheet ∧ ∃ r selectors,
      ∃ d ∈ (shadowedName.catalog.job 0 sheet).injectionsFor r selectors,
      ∃ key ∈ selectors, ∃ x t, (shadowedName.catalog.job 0 sheet).keyObject? key = some x ∧
        shadowedName.catalog.overridden? x = some t ∧
        d.value = (shadowedName.catalog.job 0 sheet).resolutionTo t ∧
        (isIdentifier ((shadowedName.catalog.job 0 sheet).nameOf t.block) = true →
          ((shadowedName.catalog.job 0 sheet).ReadsBack t ↔
            (shadowedName.catalog.pathTo t).namesAreIdentifiers = true ∧
              (shadowedName.catalog.job 0 sheet).IsUnshadowed t)) := by
  obtain ⟨sheet, hsheet, r, -, selectors, -, d, hd, -⟩ := shadowedName_injects
  obtain ⟨key, hkey, x, t, hx, ht, hvalue, hiff, -⟩ :=
    injected_reference_iff (Session.reachable_ofFiles _ _) hsheet hd
  exact ⟨sheet, hsheet, r, selectors, d, hd, key, hkey, x, t, hx, ht, hvalue, hiff⟩

/-- A reference that is put in may mean an object that has nothing to do with the one it stands
for. -/
theorem shadowedName_not_readsBack : ∃ sheet,
    (shadowedName.catalog.block 0).stylesheet = some sheet ∧ ∃ r ∈ sheet.rules,
      ∃ selectors, Selector.parseList r.selector = .ok selectors ∧
      ∃ d ∈ (shadowedName.catalog.job 0 sheet).injectionsFor r selectors, ∃ key ∈ selectors,
        ∃ x t, (shadowedName.catalog.job 0 sheet).keyObject? key = some x ∧
          shadowedName.catalog.overridden? x = some t ∧
          d.value = (shadowedName.catalog.job 0 sheet).resolutionTo t ∧
          ¬(shadowedName.catalog.job 0 sheet).ReadsBack t := by
  obtain ⟨sheet, hsheet, r, hr, selectors, hselectors, d, hd, key, hkey, hx, ht, hvalue, hlookup⟩ :=
    shadowedName_injects
  refine ⟨sheet, hsheet, r, hr, selectors, hselectors, d, hd, key, hkey, _, _, hx, ht, hvalue, ?_⟩
  rintro ⟨-, hmeans⟩
  exact absurd (hlookup.symm.trans hmeans) (by decide)

end StyleBlocks
