import Mathlib.Data.List.Dedup
import StyleBlocks.Proofs.Block.Mirror
import StyleBlocks.Proofs.Session.Frames

/-!
# What reading rules makes of a block's objects

Main result: `BlockReader.readRule_ok`.
-/

namespace StyleBlocks

open List Block

variable {location : Location} {path : ObjectPath} {rule : Rule} {selector : Selector} {u : Unit}

namespace Block

variable {b b' b'' : Block}

/-- The objects of the block are those of the rules, and hold what the rules say. -/
structure Reflects (b : Block) (file : String) (rules : List Rule) : Prop where
  wellFormed : b.WellFormed
  namesReadable : b.NamesReadable
  knows : ∀ r ∈ rules, b.Knows r
  mirrors : b.Mirrors file rules

theorem reflects_nil {file : String} (h : b.objects = [.new ":scope" .root]) :
    b.Reflects file [] := by
  refine ⟨wellFormed_of_root h, ?_, by simp, ?_⟩
  · intro s hs
    rw [h, mem_singleton] at hs
    rw [hs]
    exact ⟨by unfold NulFree; decide, by simp [StyleObject.new, StyleObject.group?]⟩
  · intro i pseudo
    rw [contributionsAt, h]
    cases i <;> rfl

/-- Objects are made, and nothing is said about any. -/
structure AdvancesTo (b b' : Block) : Prop where
  wellFormed : b'.WellFormed
  grows : b.GrowsTo b'
  contributions : b.SaysTheSame b'
  names : b.NamesReadable → b'.NamesReadable

namespace AdvancesTo

theorem refl (hb : b.WellFormed) : b.AdvancesTo b :=
  ⟨hb, .refl b, fun _ _ => rfl, id⟩

theorem trans (h : b.AdvancesTo b') (h' : b'.AdvancesTo b'') : b.AdvancesTo b'' :=
  ⟨h'.wellFormed, h.grows.trans h'.grows,
    fun i pseudo => (h'.contributions i pseudo).trans (h.contributions i pseudo),
    fun hb => h'.names (h.names hb)⟩

theorem obtainPath (hb : b.WellFormed) (hp : path.IsReadable) :
    b.AdvancesTo (b.obtainPath path).2 :=
  ⟨(wellFormed_obtainPath hb path).1, (wellFormed_obtainPath hb path).2.1,
    b.saysTheSame_obtainPath path, fun h => h.obtainPath hp⟩

theorem makeGlobal (hb : b.WellFormed) {id : ObjectId} (h : b.makeGlobal id = .ok b') :
    b.AdvancesTo b' := by
  obtain ⟨s, owner, group, isGlobal, hs, hkind, rfl⟩ := exists_of_makeGlobal h
  have hf : ∀ t, b.objects[id.index]? = some t →
      (ObjectKind.state owner group true).plain = t.kind.plain := by
    intro t ht
    obtain rfl : s = t := Option.some.inj ((object?_eq_some.1 hs).2.symm.trans ht)
    rw [hkind]
    rfl
  exact ⟨hb.modifyObject _ fun t ht => ⟨rfl, hf t ht, rfl⟩,
    b.growsTo_modifyObject _ fun t ht => ⟨rfl, hf t ht, prefix_rfl⟩,
    b.saysTheSame_modifyObject _ fun _ => rfl,
    fun h => h.modifyObject _ fun t ht => ⟨rfl, hf t ht⟩⟩

end AdvancesTo

end Block

namespace BlockReader

variable {r : BlockReader} {w w' : Workspace}

/-- The block that is read has its place in the catalog and its objects in order. -/
structure Ready (r : BlockReader) (w : Workspace) : Prop where
  lt : r.number < w.next
  wellFormed : (w.catalog.block r.number).WellFormed

/-- The block that is read advances, and has its place still. -/
def Advances (r : BlockReader) (w w' : Workspace) : Prop :=
  w'.next = w.next ∧
    (w.catalog.block r.number).AdvancesTo (w'.catalog.block r.number)

theorem Ready.advances (h : r.Ready w) (ha : r.Advances w w') : r.Ready w' :=
  ⟨ha.1 ▸ h.lt, ha.2.wellFormed⟩

theorem Ready.refl (h : r.Ready w) : r.Advances w w :=
  ⟨rfl, .refl h.wellFormed⟩

theorem Advances.trans {w'' : Workspace} (h : r.Advances w w') (h' : r.Advances w' w'') :
    r.Advances w w'' :=
  ⟨h'.1.trans h.1, h.2.trans h'.2⟩

theorem obtainObject_ok (hr : r.Ready w) (hp : path.IsReadable) {id : ObjectId}
    (h : (r.obtainObject path location).run w = (.ok id, w')) :
    r.Advances w w' ∧ (w'.catalog.block r.number).find? path = some id := by
  rw [run_obtainObject] at h
  obtain ⟨hid, hw⟩ := Prod.mk.inj h
  have hblock : w'.catalog.block r.number = ((w.catalog.block r.number).obtainPath path).2 := by
    rw [← hw]
    exact Catalog.block_modifyBlock_self hr.lt
  refine ⟨⟨?_, ?_⟩, ?_⟩
  · rw [← hw]
    exact Catalog.length_modifyBlock
  · rw [hblock]
    exact .obtainPath hr.wellFormed hp
  · rw [hblock]
    exact (wellFormed_obtainPath hr.wellFormed path).2.2 id (except_mapError_ok_iff.1 hid)

theorem readCompound_ok (hr : r.Ready w) {isKey : Bool} {compound : Compound}
    (hc : compound.IsNulFree) {found : Option ObjectId}
    (h : (r.readCompound selector isKey location compound).run w = (.ok found, w')) :
    r.Advances w w' ∧ ∃ path rest, ObjectPath.ofCompound compound = .ok (path, rest) ∧
      ((∃ id, found = some id ∧ path.block = none ∧
          (w'.catalog.block r.number).find? path = some id) ∨
        ∃ name, path.block = some name ∧ w' = w ∧
          (r.checkForeign path name isKey selector location).run w = (.ok (), w)) := by
  unfold readCompound at h
  split at h
  · cases h
  rename_i path rest hpath
  have hp := ObjectPath.isReadable_ofCompound hc hpath
  dsimp only at h
  split at h
  · obtain ⟨_, _, hfail, -⟩ := run_bind_ok h
    cases hfail
  cases hblock : path.block with
  | some name =>
    rw [hblock] at h
    obtain ⟨_, w₁, hf, h⟩ := run_bind_ok h
    obtain rfl : w = w₁ := (r.ordinary_checkForeign (R := Eq) _ _ _ _ _).of_ok hf
    cases h
    exact ⟨hr.refl, path, rest, hpath, .inr ⟨name, hblock, rfl, hf⟩⟩
  | none =>
    rw [hblock] at h
    obtain ⟨id, w₁, ho, h⟩ := run_bind_ok h
    cases h
    obtain ⟨ha, hf⟩ := obtainObject_ok hr hp ho
    exact ⟨ha, path, rest, hpath, .inl ⟨id, rfl, hblock, hf⟩⟩

theorem checkForeign_ok {name : String} {isKey : Bool}
    (h : (r.checkForeign path name isKey selector location).run w = (.ok u, w')) :
    isKey = false ∧ (∃ target, (w.catalog.block r.number).reference? name = some target) ∧
      ∃ id, w.catalog.named? r.number path = some id ∧
        (w.catalog.object? id).any StyleObject.isGlobal = true := by
  unfold checkForeign at h
  dsimp only at h
  split at h
  · obtain ⟨_, _, hfail, -⟩ := run_bind_ok h
    cases hfail
  rename_i hkey
  obtain ⟨_, w₁, hdiscard, h⟩ := run_bind_ok h
  obtain ⟨target, href, -⟩ := run_map_ok hdiscard
  obtain ⟨rfl, htarget⟩ := reference_eq_ok href
  split at h
  · obtain ⟨_, _, hfail, -⟩ := run_bind_ok h
    cases hfail
  obtain ⟨w₁, w₂, hget, h⟩ := run_bind_ok h
  cases hget
  split at h
  · cases h
  rename_i id hid
  split at h
  · cases h
  · rename_i hglobal
    exact ⟨by simpa using hkey, ⟨target, htarget⟩, id, hid, by simpa using hglobal⟩

theorem readSelector_ok (hr : r.Ready w) (hs : selector.IsNulFree)
    {found : Option (ObjectId × Option String)}
    (h : (r.readSelector location selector).run w = (.ok found, w')) :
    r.Advances w w' ∧ ∃ id, found = some (id, selector.key.pseudoName?) ∧
      (w'.catalog.block r.number).keyObject? selector = some id := by
  obtain ⟨_, w₁, hctx, h⟩ := run_bind_ok h
  obtain ⟨key, w₂, hkey, h⟩ := run_bind_ok h
  cases h
  have h₁ : r.Advances w w₁ := by
    refine forM_ok (fun _ w₁ => r.Advances w w₁) ?_ hctx hr.refl
    rintro done p rest s s' hl ha hstep
    obtain ⟨found, hread, -⟩ := run_map_ok hstep
    refine ha.trans (readCompound_ok (hr.advances ha) (hs p.1 ?_) hread).1
    refine mem_append_left _ (mem_map.2 ⟨p, ?_, rfl⟩)
    rw [hl]
    simp
  obtain ⟨h₂, path, rest, hpath, hfound⟩ := readCompound_ok (hr.advances h₁) (hs selector.key (by
    simp [Selector.compounds])) hkey
  obtain ⟨id, rfl, hlocal, hf⟩ | ⟨name, -, -, hforeign⟩ := hfound
  · refine ⟨h₁.trans h₂, id, rfl, ?_⟩
    simp [keyObject?, hpath, hlocal, hf]
  · -- a key of another block is refused
    exact absurd (checkForeign_ok hforeign).1 (by simp)

theorem readGlobal_ok (hr : r.Ready w) {keys : List (ObjectId × Option String)} {d : Declaration}
    (h : (r.readGlobal keys d).run w = (.ok u, w')) : r.Advances w w' := by
  unfold readGlobal at h
  split at h
  · refine forM_ok (fun _ w₁ => r.Advances w w₁) ?_ h hr.refl
    rintro done key rest s s' - ha hstep
    obtain ⟨b, hb, rfl⟩ := LoadM.updateBlock_eq_ok hstep
    refine ha.trans ⟨Catalog.length_modifyBlock, ?_⟩
    have hblock : (s.modifyBlock r.number fun _ => b).catalog.block r.number = b :=
      Catalog.block_modifyBlock_self (hr.advances ha).lt
    rw [hblock]
    exact .makeGlobal (hr.advances ha).wellFormed hb
  · cases h
    exact hr.refl
  · cases h

end BlockReader

namespace Block

variable {b : Block}

theorem contribute_foldl (hb : b.WellFormed) (keys : List (ObjectId × Option String))
    (c : Contribution) :
    (keys.foldl (fun b key => b.contribute key.1 key.2 c) b).WellFormed ∧
      b.GrowsTo (keys.foldl (fun b key => b.contribute key.1 key.2 c) b) ∧
      (b.NamesReadable → (keys.foldl (fun b key => b.contribute key.1 key.2 c) b).NamesReadable) := by
  refine List.foldlRecOn (motive := fun b' => b'.WellFormed ∧ b.GrowsTo b' ∧
    (b.NamesReadable → b'.NamesReadable)) _ _ ⟨hb, .refl b, id⟩ fun b' h key _ => ?_
  obtain ⟨hb', hg, hn⟩ := h
  unfold contribute
  split
  · exact ⟨hb'.modifyObject _ fun _ _ => ⟨rfl, rfl, rfl⟩,
      hg.trans (b'.growsTo_modifyObject _ fun _ _ => ⟨rfl, rfl, prefix_rfl⟩),
      fun h => (hn h).modifyObject _ fun _ _ => ⟨rfl, rfl⟩⟩
  · exact ⟨hb', hg, hn⟩

end Block

namespace BlockReader

variable {r : BlockReader} {w w' : Workspace}

theorem readSelectors_ok (hr : r.Ready w) {selectors : List Selector}
    (hsel : Selector.parseList rule.selector = .ok selectors)
    {found : List (Option (ObjectId × Option String))}
    (h : (selectors.mapM (r.readSelector rule.location)).run w = (.ok found, w')) :
    r.Advances w w' ∧ (w'.catalog.block r.number).Knows rule ∧
      (w'.catalog.block r.number).keysOf rule = found.filterMap id := by
  have hfree := Selector.isNulFree_of_parseList hsel
  have key := mapM_ok (fun done found w₁ => r.Advances w w₁ ∧
    (∀ s ∈ done, ∃ id, (w₁.catalog.block r.number).keyObject? s = some id) ∧
    done.filterMap (fun s => ((w₁.catalog.block r.number).keyObject? s).map (·, s.key.pseudoName?))
      = found.filterMap id) ?_ h ⟨hr.refl, by simp, rfl⟩
  · refine ⟨key.1, ⟨selectors, hsel, key.2.1⟩, ?_⟩
    simp only [keysOf, hsel]
    exact key.2.2
  rintro done found s rest w₁ o w₂ hl ⟨ha, hknown, hkeys⟩ hstep
  have hmem : s ∈ selectors := by simp [hl]
  obtain ⟨ha', id, rfl, hid⟩ := readSelector_ok (hr.advances ha) (hfree s hmem) hstep
  -- what was found stays found
  have hold : ∀ s' ∈ done, (w₂.catalog.block r.number).keyObject? s'
      = (w₁.catalog.block r.number).keyObject? s' := by
    intro s' hs'
    obtain ⟨id', hid'⟩ := hknown s' hs'
    rw [hid', ha'.2.grows.keyObject? (hr.advances ha).wellFormed hid']
  refine ⟨ha.trans ha', ?_, ?_⟩
  · intro s' hs'
    rcases mem_append.1 hs' with hs' | hs'
    · rw [hold s' hs']
      exact hknown s' hs'
    · rw [mem_singleton.1 hs']
      exact ⟨id, hid⟩
  · rw [filterMap_append, filterMap_append, ← hkeys]
    congr 1
    · exact filterMap_congr fun s' hs' => by rw [hold s' hs']
    · simp [hid]

theorem nodup_eraseDups {α : Type} [BEq α] [LawfulBEq α] (l : List α) : l.eraseDups.Nodup := by
  induction hn : l.length using Nat.strong_induction_on generalizing l with
  | _ n ih =>
    cases l with
    | nil => simp
    | cons a l =>
      rw [eraseDups_cons, nodup_cons]
      refine ⟨by simp, ih _ ?_ _ rfl⟩
      have := length_filter_le (fun b => !b == a) l
      simp only [length_cons] at hn
      omega

theorem contributionsAt_keys {b : Block} (hb : b.WellFormed) {file : String} {i : Nat}
    {q : Option String} (hd : (concreteDeclarations rule).isEmpty = false) :
    ((b.keysOf rule).eraseDups.foldl (fun b key =>
      b.contribute key.1 key.2 ⟨rule.id, some file, concreteDeclarations rule⟩) b).contributionsAt i q
      = b.contributionsAt i q ++ if b.styles i q rule then [contributionOf file rule] else [] := by
  rw [contributionsAt_foldl (nodup_eraseDups _)]
  · simp only [mem_eraseDups, styles, hd, Bool.not_false, Bool.and_true, contains_iff_mem]
    split
    · rfl
    · rw [append_nil]
  -- a key is an object of the block
  intro k hk
  rw [mem_eraseDups] at hk
  unfold keysOf at hk
  split at hk
  · obtain ⟨s, -, hs⟩ := mem_filterMap.1 hk
    obtain ⟨id, hid, rfl⟩ := Option.map_eq_some_iff.1 hs
    obtain ⟨_, _, -, -, hfind⟩ := keyObject?_eq_some.1 hid
    obtain ⟨hblock, hlt, -⟩ := pathTo_of_find? hb hfind
    exact ⟨hblock, hlt⟩
  · simp at hk

/-- **Reading one more rule with success**: the rule is known and mirrored as those before it.  Once
its selectors are read no object is lost. -/
theorem readRule_ok {rules : List Rule} (hlt : r.number < w.next)
    (hb : (w.catalog.block r.number).Reflects r.filename rules)
    (h : (r.readRule rule).run w = (.ok u, w')) :
    (w'.catalog.block r.number).Reflects r.filename (rules ++ [rule]) ∧
      ∃ selectors found w₂, Selector.parseList rule.selector = .ok selectors ∧
        (selectors.mapM (r.readSelector rule.location)).run w = (.ok found, w₂) ∧
        (w₂.catalog.block r.number).GrowsTo (w'.catalog.block r.number) := by
  have hr : r.Ready w := ⟨hlt, hb.wellFormed⟩
  obtain ⟨selectors, w₁, hsel, h⟩ := run_bind_ok h
  have hparse : Selector.parseList rule.selector = .ok selectors ∧ w = w₁ := by
    unfold BlockReader.selectors at hsel
    split at hsel
    · rename_i hp
      cases hsel
      exact ⟨hp, rfl⟩
    · cases hsel
  obtain ⟨hparse, rfl⟩ := hparse
  obtain ⟨found, w₂, hm, h⟩ := run_bind_ok h
  obtain ⟨ha, hknows, hkeys⟩ := readSelectors_ok hr hparse hm
  have hr₂ := hr.advances ha
  -- what is left to do: the block with the rule's declarations advances while states become global
  have hend : ∀ w₃, r.number < w₃.next → (w₃.catalog.block r.number).WellFormed →
      (w₂.catalog.block r.number).GrowsTo (w₃.catalog.block r.number) →
      ((w₂.catalog.block r.number).NamesReadable → (w₃.catalog.block r.number).NamesReadable) →
      (∀ i q, (w₃.catalog.block r.number).contributionsAt i q
        = (w₂.catalog.block r.number).contributionsAt i q
          ++ if (w₂.catalog.block r.number).styles i q rule
            then [contributionOf r.filename rule] else []) →
      ((rule.declarations.filter (·.property == "block-global")).forM
        (r.readGlobal (found.filterMap id).eraseDups)).run w₃ = (.ok u, w') →
      (w'.catalog.block r.number).Reflects r.filename (rules ++ [rule]) ∧
        (w₂.catalog.block r.number).GrowsTo (w'.catalog.block r.number) := by
    intro w₃ hlt₃ hwf₃ hg₃ hn₃ hc₃ hfor
    have hr₃ : r.Ready w₃ := ⟨hlt₃, hwf₃⟩
    have ha₃ : r.Advances w₃ w' := by
      refine forM_ok (fun _ w₄ => r.Advances w₃ w₄) ?_ hfor hr₃.refl
      rintro done d rest s s' - hs hstep
      exact hs.trans (readGlobal_ok (hr₃.advances hs) hstep)
    have hg₂ := hg₃.trans ha₃.2.grows
    have hg := ha.2.grows.trans hg₂
    refine ⟨⟨ha₃.2.wellFormed, ha₃.2.names (hn₃ (ha.2.names hb.namesReadable)), ?_, ?_⟩, hg₂⟩
    · intro r' hr'
      rcases mem_append.1 hr' with hr' | hr'
      · exact hg.knows hb.wellFormed (hb.knows r' hr')
      · rw [mem_singleton.1 hr']
        exact hg₂.knows hr₂.wellFormed hknows
    · refine hb.mirrors.snoc hb.wellFormed hb.knows hg fun i q => ?_
      rw [ha₃.2.contributions, hc₃, ha.2.contributions, styles, styles,
        hg₂.keysOf hr₂.wellFormed hknows, hg₂.number]
  suffices H : (w'.catalog.block r.number).Reflects r.filename (rules ++ [rule]) ∧
      (w₂.catalog.block r.number).GrowsTo (w'.catalog.block r.number) from
    ⟨H.1, selectors, found, w₂, hparse, hm, H.2⟩
  dsimp only at h
  rw [← hkeys] at h hend
  split at h
  · rename_i hd
    obtain ⟨_, w₃, hmod, h⟩ := run_bind_ok h
    cases hmod
    have hblock := Catalog.block_modifyBlock_self (g := w₂.catalog)
      (f := fun b => ((w₂.catalog.block r.number).keysOf rule).eraseDups.foldl (fun b key =>
        b.contribute key.1 key.2 ⟨rule.id, some r.filename, concreteDeclarations rule⟩) b) hr₂.lt
    obtain ⟨hwf, hg, hn⟩ := contribute_foldl hr₂.wellFormed
      ((w₂.catalog.block r.number).keysOf rule).eraseDups
      ⟨rule.id, some r.filename, concreteDeclarations rule⟩
    rw [← hblock] at hwf hg hn
    refine hend _ (hr₂.lt.trans_eq Catalog.length_modifyBlock.symm) hwf hg hn (fun i q => ?_) h
    rw [← contributionsAt_keys hr₂.wellFormed (by simpa using hd), ← hblock]
    rfl
  · rename_i hd
    refine hend w₂ hr₂.lt hr₂.wellFormed (.refl _) id (fun i q => ?_) h
    simp [styles, hd]

end BlockReader

end StyleBlocks
