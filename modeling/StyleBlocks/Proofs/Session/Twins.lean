import StyleBlocks.Proofs.Block.SameObjects
import StyleBlocks.Proofs.Session.Portraits

/-!
# What reading makes of a stylesheet

If two workspaces have the same portraits for the blocks that a stylesheet names, then reading the
stylesheet makes blocks with the same portrait in both.  The two readings are followed step by step:
each step that succeeds in both leaves twins.

Main result: `BlockReader.twins_of_read`.
-/

namespace StyleBlocks

open Block LoadM

variable {a a' : Unit} {h : AtHead} {heads : List AtHead}
  {keys keys' : List (ObjectId × Option String)} {path : String} {place place' : Place}
  (name : String) (location : Location) {m m' : Nat}

namespace LoadM

open Workspace

variable {n n' : Nat} {P : Workspace → Workspace → Prop}

theorem couples_modifyBlock {f f' : Block → Block}
    (hP : ∀ w w', P w w' → Twins n n' (w.modifyBlock n f) (w'.modifyBlock n' f')) :
    Couples P (LoadM.modifyBlock n f) (LoadM.modifyBlock n' f') fun _ _ => Twins n n' := by
  intro w w' _ _ v v' hw hx hy
  cases hx
  cases hy
  exact hP w w' hw

theorem couples_updateBlock {f f' : Block → Except BlockError Block}
    (hP : ∀ w w' c c', P w w' → f (w.catalog.block n) = .ok c → f' (w'.catalog.block n') = .ok c' →
      Twins n n' (w.modifyBlock n fun _ => c) (w'.modifyBlock n' fun _ => c')) :
    Couples P (LoadM.updateBlock n place f) (LoadM.updateBlock n' place' f')
      fun _ _ => Twins n n' := by
  intro w w' _ _ v v' hw hx hy
  obtain ⟨c, hc, rfl⟩ := LoadM.updateBlock_eq_ok hx
  obtain ⟨c', hc', rfl⟩ := LoadM.updateBlock_eq_ok hy
  exact hP w w' c c' hw hc hc'

end LoadM

namespace BlockReader

open Workspace

variable {r r' : BlockReader} {P : Workspace → Workspace → Prop}

/-- The blocks that the two readers fill are twins. -/
abbrev Pair (r r' : BlockReader) (w w' : Workspace) : Prop :=
  Twins r.number r'.number w w'

abbrev PairWith (r r' : BlockReader) (t t' : Nat) (w w' : Workspace) : Prop :=
  Pair r r' w w' ∧ w'.catalog.identifierOf t' = w.catalog.identifierOf t

abbrev KeepPair (r r' : BlockReader) {α : Type} (x y : LoadM α) : Prop :=
  Couples (Pair r r') x y fun _ _ => Pair r r'

theorem couples_introduce {t t' : Nat} :
    Couples (PairWith r r' t t') (r.introduce name t location) (r'.introduce name t' location)
      fun _ _ => Pair r r' := by
  refine couples_updateBlock ?_
  rintro w w' c c' ⟨htwins, ht⟩ hc hc'
  obtain ⟨hfixed, hportrait⟩ := fixed_portrait_of_introduce hc
  obtain ⟨hfixed', hportrait'⟩ := fixed_portrait_of_introduce hc'
  refine htwins.modifyBlock hfixed hfixed' ?_
  rw [hportrait, hportrait', ht]
  exact congrArg (Portrait.introduce · name _) htwins.portrait

theorem couples_importExport (path : String) (location : Location) (names : String × String) :
    Couples (fun w w' => Pair r r' w w' ∧ Twins m m' w w')
      (r.importExport m path location names) (r'.importExport m' path location names)
      fun _ _ => Pair r r' := by
  rintro w w' _ _ v v' ⟨htwins, hm⟩ hx hy
  obtain ⟨t, ht, hx⟩ := importExport_eq_ok hx
  obtain ⟨t', ht', hy⟩ := importExport_eq_ok hy
  exact couples_introduce names.2 location w w' _ _ v v' ⟨htwins, hm.of_export? ht ht'⟩ hx hy

theorem couples_exported_some (path name : String) (location : Location) :
    Couples (fun w w' => Pair r r' w w' ∧ Twins m m' w w')
      (r.exported (some (m, path)) name location) (r'.exported (some (m', path)) name location)
      (PairWith r r') := by
  rintro w w' t t' v v' ⟨htwins, hm⟩ hx hy
  obtain ⟨rfl, ht⟩ := exported_eq_ok hx
  obtain ⟨rfl, ht'⟩ := exported_eq_ok hy
  exact ⟨htwins, hm.of_export? ht ht'⟩

theorem couples_exported_none :
    Couples (Pair r r') (r.exported none name location) (r'.exported none name location)
      (PairWith r r') := by
  intro w w' t t' v v' htwins hx hy
  obtain ⟨rfl, ht⟩ := exported_eq_ok hx
  obtain ⟨rfl, ht'⟩ := exported_eq_ok hy
  exact ⟨htwins, htwins.of_reference? ht ht'⟩

theorem couples_reference :
    Couples (Pair r r') (r.reference name location) (r'.reference name location)
      (PairWith r r') := by
  intro w w' t t' v v' htwins hx hy
  obtain ⟨rfl, ht⟩ := reference_eq_ok hx
  obtain ⟨rfl, ht'⟩ := reference_eq_ok hy
  exact ⟨htwins, htwins.of_reference? ht ht'⟩

theorem couples_offer {origin origin' : Option (Nat × String)} {location : Location}
    {names : String × String}
    (h : Couples P (r.exported origin names.1 location) (r'.exported origin' names.1 location)
      (PairWith r r')) :
    Couples P (r.offer origin location names) (r'.offer origin' location names)
      fun _ _ => Pair r r' := by
  refine h.bind fun t t' => ?_
  refine couples_updateBlock ?_
  rintro w w' c c' ⟨htwins, ht⟩ hc hc'
  obtain ⟨hfixed, hportrait⟩ := fixed_portrait_of_offer hc
  obtain ⟨hfixed', hportrait'⟩ := fixed_portrait_of_offer hc'
  refine htwins.modifyBlock hfixed hfixed' ?_
  rw [hportrait, hportrait', ht]
  exact congrArg (Portrait.offer · names.2 _) htwins.portrait

theorem couples_and_twins {α : Type} (hm : m ≠ r.number) (hm' : m' ≠ r'.number) {x y : LoadM α}
    (h : Couples (fun w w' => Pair r r' w w' ∧ Twins m m' w w') x y fun _ _ => Pair r r')
    (hx : Ordinary (EditsOnly fixed r.number) x) (hy : Ordinary (EditsOnly fixed r'.number) y) :
    Couples (fun w w' => Pair r r' w w' ∧ Twins m m' w w') x y
      fun _ _ w w' => Pair r r' w w' ∧ Twins m m' w w' :=
  fun w w' a b v v' hw hxw hyw => ⟨h w w' a b v v' hw hxw hyw,
    hw.2.of_editsOnly_of_ne hm hm' (hx.leads.of_ok hxw) (hy.leads.of_ok hyw)⟩

/-- **An at-rule does the same in both**, if it names a file whose blocks are twins. -/
theorem couples_applyAtRule_of_path (hp : path? h = some path) (hm : m ≠ r.number)
    (hm' : m' ≠ r'.number) :
    Couples (fun w w' => Pair r r' w w' ∧ Twins m m' w w')
      (r.applyAtRule m h) (r'.applyAtRule m' h) fun _ _ => Pair r r' := by
  unfold path? at hp
  unfold applyAtRule readAtRule
  by_cases href : h.name = "block-reference"
  · simp only [href, true_or, if_true] at hp ⊢
    obtain ⟨⟨names, path'⟩, hparse, rfl⟩ := Option.bind_eq_some_iff.1 hp
    simp only [readReference, hparse]
    cases names with
    | single name =>
      refine (couples_introduce name h.location).weaken ?_
      rintro w w' ⟨htwins, htwins'⟩
      exact ⟨htwins, congrArg Portrait.identifier htwins'.portrait⟩
    | several names =>
      refine (Couples.forM fun pair => ?_).imp fun _ _ _ _ hw => hw.1
      exact couples_and_twins hm hm' (couples_importExport path h.location pair)
        (r.ordinary_importExport (fun _ _ => rfl) _ _ _ _)
        (r'.ordinary_importExport (fun _ _ => rfl) _ _ _ _)
  · by_cases hexp : h.name = "export"
    · simp only [hexp, or_true, if_true] at hp ⊢
      obtain ⟨⟨names, path'⟩, hparse, rfl⟩ := Option.bind_eq_some_iff.1 hp
      simp only [readExport, hparse]
      refine (Couples.forM fun pair => ?_).imp fun _ _ _ _ hw => hw.1
      exact couples_and_twins hm hm' (couples_offer (couples_exported_some path pair.1 h.location))
        (r.ordinary_offer (fun _ _ => rfl) _ _ _) (r'.ordinary_offer (fun _ _ => rfl) _ _ _)
    · simp [href, hexp] at hp

theorem couples_applyAtRule_of_none (hp : path? h = none) (m m' : Nat) :
    KeepPair r r' (r.applyAtRule m h) (r'.applyAtRule m' h) := by
  unfold path? at hp
  unfold applyAtRule readAtRule
  by_cases href : h.name = "block-reference"
  · simp only [href, true_or, if_true] at hp ⊢
    unfold readReference
    split
    · rename_i hparse
      rw [hparse] at hp
      cases hp
    · exact .throw _
  · by_cases hexp : h.name = "export"
    · simp only [hexp, or_true, if_true] at hp ⊢
      unfold readExport
      cases hparse : Import.parse? h.params with
      | none => exact .throw _
      | some i =>
        obtain ⟨names, path⟩ := i
        rw [hparse] at hp
        obtain rfl : path = none := hp
        exact Couples.forM fun pair => couples_offer (couples_exported_none pair.1 h.location)
    · simp only [href, hexp, if_false]
      exact .pure fun _ _ htwins => htwins

/-! ### Declarations of the root -/

theorem couples_of_ordinary {α : Type} {x y : LoadM α}
    (hx : Ordinary (EditsOnly (fun b => (fixed b, b.drawn)) r.number) x)
    (hy : Ordinary (EditsOnly (fun b => (fixed b, b.drawn)) r'.number) y) :
    KeepPair r r' x y :=
  fun _ _ _ _ _ _ htwins hxs hyt => htwins.of_editsOnly (hx.of_ok hxs) (hy.of_ok hyt)

theorem couples_readBase :
    KeepPair r r' (r.readBase name location) (r'.readBase name location) := by
  refine (couples_reference name location).bind fun t t' => Couples.get.bind fun w w' => ?_
  dsimp only
  split
  · exact .throw _
  split
  · exact .throw _
  split
  · exact .throw_right _
  split
  · exact .throw_right _
  refine couples_modifyBlock ?_
  rintro w w' ⟨htwins, ht⟩
  refine htwins.modifyBlock rfl rfl ?_
  change (w'.catalog.portrait r'.number).extend name (w'.catalog.identifierOf t')
    = (w.catalog.portrait r.number).extend name (w.catalog.identifierOf t)
  rw [htwins.portrait, ht]

theorem couples_readRootDeclaration (isRoot : Bool) (d : Declaration) :
    KeepPair r r' (r.readRootDeclaration isRoot d) (r'.readRootDeclaration isRoot d) := by
  unfold readRootDeclaration
  dsimp only
  split
  · split
    · exact couples_of_ordinary (r.ordinary_readName (fun _ _ _ => rfl) _ _)
        (r'.ordinary_readName (fun _ _ _ => rfl) _ _)
    split
    · exact couples_readBase _ _
    · exact couples_of_ordinary (r.ordinary_readImplements (fun _ _ => rfl) _ _)
        (r'.ordinary_readImplements (fun _ _ => rfl) _ _)
  · exact .throw _

theorem couples_selectors (rule : Rule) :
    Couples P (r.selectors rule) (r'.selectors rule) fun l l' w w' => l = l' ∧ P w w' := by
  unfold selectors
  split
  · exact .pure fun _ _ hw => ⟨rfl, hw⟩
  · exact .throw _

theorem couples_readRootDeclarations (rule : Rule) :
    KeepPair r r' (r.readRootDeclarations rule) (r'.readRootDeclarations rule) := by
  unfold readRootDeclarations
  dsimp only
  split
  · refine (couples_selectors rule).bind fun l l' => .assume ?_
    rintro rfl
    exact .forM (couples_readRootDeclaration _)
  · exact .pure fun _ _ htwins => htwins

/-! ### Rules -/

theorem couples_obtainObject (path : ObjectPath) (location : Location) :
    Couples (Pair r r') (r.obtainObject path location)
      (r'.obtainObject path location) fun x x' w w' =>
        x.SamePlace r.number r'.number x' ∧ Pair r r' w w' := by
  intro w w' x x' v v' htwins hx hy
  rw [run_obtainObject] at hx hy
  dsimp only at hx hy
  obtain ⟨hfound, rfl⟩ := Prod.mk.inj hx
  obtain ⟨hfound', rfl⟩ := Prod.mk.inj hy
  obtain ⟨hplace, hobjects⟩ := obtainPath_of_objects_eq htwins.objects
    (except_mapError_ok_iff.1 hfound) (except_mapError_ok_iff.1 hfound')
  rw [htwins.number, htwins.number'] at hplace
  exact ⟨hplace, htwins.of_objects ((w.catalog.block r.number).exists_objects_obtainPath path)
    ((w'.catalog.block r'.number).exists_objects_obtainPath path) hobjects⟩

theorem couples_readCompound (selector : Selector) (isKey : Bool) (location : Location)
    (compound : Compound) : Couples (Pair r r')
      (r.readCompound selector isKey location compound)
      (r'.readCompound selector isKey location compound) fun found found' w w' =>
        Option.Rel (ObjectId.SamePlace r.number r'.number) found found' ∧ Pair r r' w w' := by
  unfold readCompound
  cases ObjectPath.ofCompound compound with
  | error fault => exact .throw _
  | ok parsed =>
    obtain ⟨path, rest⟩ := parsed
    dsimp only
    split
    · exact Couples.bind (Q := fun _ _ _ _ => False) (.throw _) fun _ _ _ _ _ _ _ _ h => h.elim
    cases path.block with
    | some name =>
      refine (couples_of_ordinary (r.ordinary_checkForeign _ _ _ _ _)
        (r'.ordinary_checkForeign _ _ _ _ _)).bind fun _ _ => .pure fun _ _ htwins => ⟨.none, htwins⟩
    | none =>
      exact (couples_obtainObject path location).bind fun x x' =>
        .pure fun _ _ hw => ⟨.some hw.1, hw.2⟩

theorem couples_readSelector (selector : Selector) :
    Couples (Pair r r') (r.readSelector location selector)
      (r'.readSelector location selector) fun found found' w w' =>
        Option.Rel (SameKey r.number r'.number) found found' ∧ Pair r r' w w' := by
  unfold readSelector
  refine (Couples.forM fun e => ?_).bind fun _ _ => ?_
  · exact (couples_readCompound selector false location e.1).map fun _ _ _ _ hw => hw.2
  refine (couples_readCompound selector true location selector.key).bind fun key key' => .pure ?_
  rintro w w' ⟨hrel, htwins⟩
  refine ⟨?_, htwins⟩
  cases hrel with
  | none => exact .none
  | some hplace => exact .some ⟨hplace, rfl⟩

theorem couples_makeGlobal {x x' : ObjectId} (hx : x.SamePlace r.number r'.number x') :
    KeepPair r r'
      (updateBlock r.number place (·.makeGlobal x))
      (updateBlock r'.number place' (·.makeGlobal x')) := by
  have hmade : ∀ {b c : Block} {x : ObjectId}, b.makeGlobal x = .ok c →
      ∃ l, c = { b with objects := l } := by
    intro b c x hc
    obtain ⟨_, _, _, _, -, -, rfl⟩ := exists_of_makeGlobal hc
    exact ⟨_, rfl⟩
  refine couples_updateBlock fun w w' c c' htwins hc hc' => ?_
  refine htwins.of_objects (hmade hc) (hmade hc') ?_
  obtain ⟨n, i⟩ := x
  obtain ⟨rfl, rfl⟩ := hx
  refine makeGlobal_of_objects_eq htwins.objects (i := i) ?_ ?_
  · rw [htwins.number]
    exact hc
  · rw [htwins.number']
    exact hc'

theorem couples_readGlobal (hkeys : List.Forall₂ (SameKey r.number r'.number) keys keys')
    (d : Declaration) :
    KeepPair r r' (r.readGlobal keys d) (r'.readGlobal keys' d) := by
  unfold readGlobal
  split
  · exact Couples.forM₂ hkeys fun e e' he => couples_makeGlobal he.1
  · exact .pure fun _ _ htwins => htwins
  · exact .throw _

theorem couples_contribute (hkeys : List.Forall₂ (SameKey r.number r'.number) keys keys')
    (c : Contribution) :
    KeepPair r r'
      (modifyBlock r.number fun b => keys.foldl (fun b e => b.contribute e.1 e.2 c) b)
      (modifyBlock r'.number fun b => keys'.foldl (fun b e => b.contribute e.1 e.2 c) b) := by
  refine couples_modifyBlock fun w w' htwins =>
    htwins.of_objects (exists_objects_contribute _ keys c) (exists_objects_contribute _ keys' c)
      (contribute_foldl_of_objects_eq ?_ htwins.objects c)
  rwa [htwins.number, htwins.number']

theorem couples_readRule (hfile : r'.filename = r.filename) (rule : Rule) :
    KeepPair r r' (r.readRule rule) (r'.readRule rule) := by
  unfold readRule
  refine (couples_selectors rule).bind fun l l' => .assume ?_
  rintro rfl
  refine (Couples.mapM (couples_readSelector rule.location)).bind fun found found' => .assume ?_
  intro hrel
  have hkeys : List.Forall₂ (SameKey r.number r'.number) (found.filterMap id).eraseDups
      (found'.filterMap id).eraseDups :=
    forall₂_eraseDups (List.rel_filterMap (fun _ _ h => h) hrel)
  have hlast := Couples.forM (l := rule.declarations.filter (·.property == "block-global"))
    (couples_readGlobal hkeys)
  dsimp only
  rw [hfile]
  split
  · exact (couples_contribute hkeys _).bind fun _ _ => hlast
  · exact hlast

/-- **All that is read once the named blocks are loaded is the same in both.** -/
theorem couples_readRest (hfile : r'.filename = r.filename) (faultTolerant : Bool)
    (sheet : Stylesheet) :
    KeepPair r r' (r.readRest faultTolerant sheet) (r'.readRest faultTolerant sheet) := by
  unfold readRest
  refine (Couples.forM fun h => ?_).bind fun _ _ => ?_
  · exact couples_of_ordinary (r.ordinary_checkDebug h) (r'.ordinary_checkDebug h)
  refine (Couples.forM couples_readRootDeclarations).bind fun _ _ => ?_
  refine (Couples.forM (couples_readRule hfile)).bind fun _ _ => ?_
  exact couples_of_ordinary (r.ordinary_checkImplementations (fun _ _ => rfl) _)
    (r'.ordinary_checkImplementations (fun _ _ => rfl) _)

end BlockReader

/-! ## The blocks that are loaded -/

/-- Complete blocks of one identifier have the same portrait. -/
def Catalog.Agree (g g' : Catalog) : Prop :=
  ∀ m m', (g.block m).IsComplete → (g'.block m').IsComplete →
    g'.identifierOf m' = g.identifierOf m → g'.portrait m' = g.portrait m

namespace Workspace

variable {loading loading' : List String} {k : String} {m n m' n' : Nat}
  {w₀ w₀' w w' u u' : Workspace}

theorem Sound.agree (h : w.Sound loading) (h' : w'.Sound loading')
    (hu : u.catalog.Agree u'.catalog) (hk : w.catalog.KeepsComplete u.catalog)
    (hk' : w'.catalog.KeepsComplete u'.catalog) : w.catalog.Agree w'.catalog := by
  intro m m' hm hm' hid
  rw [← h.portrait_eq hm hk, ← h'.portrait_eq hm' hk']
  refine hu m m' (hk.isComplete hm) (hk'.isComplete hm') ?_
  rw [Catalog.identifierOf, Catalog.identifierOf, hk m hm, hk' m' hm']
  exact hid

theorem Twins.of_grows (htwins : Twins n n' w w') (h : Linked loading k n w₀ w)
    (h' : Linked loading' k n' w₀' w') (hg : w.Grows (fun _ => True) loading u)
    (hg' : w'.Grows (fun _ => True) loading' u') : Twins n n' u u' := by
  have hn := hg.block_eq n h.lt trivial
  have hn' := hg'.block_eq n' h'.lt trivial
  refine ⟨h.lt.trans_le hg.length_le, h'.lt.trans_le hg'.length_le, ?_, ?_, ?_⟩
  · rw [hn]
    exact htwins.number
  · rw [hn']
    exact htwins.number'
  · rw [h.portrait_eq (congrArg drawn hn) hg.keepsComplete,
      h'.portrait_eq (congrArg drawn hn') hg'.keepsComplete, htwins.portrait]

end Workspace

namespace BlockReader

open Workspace

variable {r r' : BlockReader} {loading loading' : List String} {k : String}
  {w₀ w₀' w w' v v' : Workspace} {load load' : LoadStep}

theorem readAtRules_ok (hk : k ∈ loading) (hload : ∀ path, Loads loading (load path))
    (h : Begun loading k r.number w₀ w) (hx : (heads.forM (r.readAtRule load)).run w = (.ok a, v)) :
    Begun loading k r.number w₀ v ∧ w.catalog.KeepsComplete v.catalog := by
  refine ⟨forM_ok (fun _ w => Begun loading k r.number w₀ w)
    (fun _ _ _ _ _ _ hs hstep => readAtRule_ok hk hload hs hstep) hx h, ?_⟩
  refine (readAtRules_keep (I := fun v => Open loading k r.number w₀ v ∧
    w.catalog.KeepsComplete v.catalog) ?_ ?_ hx ⟨h.toOpen, fun _ _ => rfl⟩).2
  · rintro path m u u' ⟨ho, hkeep⟩ hrun
    obtain ⟨hs, hg, -⟩ := hload path u ho.sound
    rw [hrun] at hs hg
    exact ⟨ho.of_grows hk hs hg, hkeep.trans hg.keepsComplete⟩
  rintro m head _ u u' ⟨ho, hkeep⟩ hrun
  have hc := (ordinary_applyAtRule (φ := fixed) (fun _ _ => rfl) (fun _ _ => rfl) m head).of_ok hrun
  exact ⟨ho.of_changesOnly hc.toChangesOnly, hkeep.trans (ho.keepsComplete hc.toChangesOnly)⟩

theorem applyAtRule_ok (hk : k ∈ loading) (hload : ∀ path, Loads loading (load path))
    (h : Begun loading k r.number w₀ w) {head : AtHead} {m : Nat} {u : Workspace}
    (hm : (load path).run w = (.ok m, u)) (hx : (r.applyAtRule m head).run u = (.ok a, v)) :
    u.Sound loading ∧ w.Grows (fun _ => True) loading u ∧ (u.catalog.block m).IsComplete ∧
      m ≠ r.number ∧ u.catalog.KeepsComplete v.catalog := by
  obtain ⟨hs, hg, hcomplete⟩ := hload path w h.sound
  rw [hm] at hs hg hcomplete
  have ho := h.toOpen.of_grows hk hs hg
  have hc := (ordinary_applyAtRule (φ := fixed) (fun _ _ => rfl) (fun _ _ => rfl) m head).of_ok hx
  exact ⟨hs, hg, hcomplete m rfl, ho.ne_of_isComplete (hcomplete m rfl),
    ho.keepsComplete hc.toChangesOnly⟩

/-- What is asked of two steps that load blocks: a path leads them to blocks of one identifier. -/
def LoadAlike (loading loading' : List String) (load load' : LoadStep) : Prop :=
  ∀ path, Couples (fun w w' => w.Sound loading ∧ w'.Sound loading') (load path) (load' path)
    fun m m' w w' => w'.catalog.identifierOf m' = w.catalog.identifierOf m

section

variable (hk : k ∈ loading) (hk' : k ∈ loading') (hload : load.Loads loading)
  (hload' : load'.Loads loading') (halike : LoadAlike loading loading' load load')

include hk hk' hload hload' halike

theorem twins_of_readAtRules (h : Begun loading k r.number w₀ w)
    (h' : Begun loading' k r'.number w₀' w') (htwins : Pair r r' w w')
    (hx : (heads.forM (r.readAtRule load)).run w = (.ok a, v))
    (hy : (heads.forM (r'.readAtRule load')).run w' = (.ok a', v'))
    (hagree : v.catalog.Agree v'.catalog) : Pair r r' v v' := by
  induction heads generalizing w w' with
  | nil =>
    cases hx
    cases hy
    exact htwins
  | cons head heads ih =>
    obtain ⟨_, w₁, hstep, hx⟩ := run_bind_ok hx
    obtain ⟨_, w₁', hstep', hy⟩ := run_bind_ok hy
    have h₁ := readAtRule_ok hk hload h hstep
    have h₁' := readAtRule_ok hk' hload' h' hstep'
    refine ih h₁ h₁' ?_ hx hy
    obtain ⟨-, hkeep⟩ := readAtRules_ok hk hload h₁ hx
    obtain ⟨-, hkeep'⟩ := readAtRules_ok hk' hload' h₁' hy
    have hagree₁ := h₁.sound.agree h₁'.sound hagree hkeep hkeep'
    obtain ⟨hp, hstep⟩ | ⟨path, m, u, hp, hm, hstep⟩ := readAtRule_eq_ok hstep
    · obtain ⟨-, hstep'⟩ | ⟨path', m', u', hp', -, -⟩ := readAtRule_eq_ok hstep'
      · exact couples_applyAtRule_of_none hp 0 0 _ _ _ _ _ _ htwins hstep hstep'
      · rw [hp] at hp'
        cases hp'
    obtain ⟨hp', -⟩ | ⟨path', m', u', hp', hm', hstep'⟩ := readAtRule_eq_ok hstep'
    · rw [hp] at hp'
      cases hp'
    rw [hp] at hp'
    cases hp'
    -- both have loaded the block of the file
    obtain ⟨hs, hg, hc, hne, hu⟩ := applyAtRule_ok hk hload h hm hstep
    obtain ⟨hs', hg', hc', hne', hu'⟩ := applyAtRule_ok hk' hload' h' hm' hstep'
    have hid := halike path _ _ _ _ _ _ ⟨h.sound, h'.sound⟩ hm hm'
    have hlt := Catalog.lt_of_isComplete hc
    have hlt' := Catalog.lt_of_isComplete hc'
    have hloaded : Twins m m' u u' := ⟨hlt, hlt', hs.number m hlt, hs'.number m' hlt',
      hs.agree hs' hagree₁ hu hu' m m' hc hc' hid⟩
    exact couples_applyAtRule_of_path hp hne hne' _ _ _ _ _ _
      ⟨htwins.of_grows h.toLinked h'.toLinked hg hg', hloaded⟩ hstep hstep'

/-- **What reading makes of a stylesheet** is a matter of the stylesheet and of the portraits of the
blocks that it names: if the workspaces agree after reading, the blocks that are read are twins. -/
theorem twins_of_read (hfile : r'.filename = r.filename) {faultTolerant : Bool} {sheet : Stylesheet}
    (h : Begun loading k r.number w₀ w) (h' : Begun loading' k r'.number w₀' w')
    (htwins : Pair r r' w w')
    (hx : (r.read load faultTolerant sheet).run w = (.ok a, v))
    (hy : (r'.read load' faultTolerant sheet).run w' = (.ok a', v'))
    (hagree : v.catalog.Agree v'.catalog) : Pair r r' v v' := by
  rw [read_eq] at hx hy
  obtain ⟨_, u, hheads, hx⟩ := run_bind_ok hx
  obtain ⟨_, u', hheads', hy⟩ := run_bind_ok hy
  obtain ⟨hu, -⟩ := readAtRules_ok hk hload h hheads
  obtain ⟨hu', -⟩ := readAtRules_ok hk' hload' h' hheads'
  have hrest := (r.leads_readRest faultTolerant sheet).of_ok hx
  have hrest' := (r'.leads_readRest faultTolerant sheet).of_ok hy
  have hagree' := hu.sound.agree hu'.sound hagree (hu.keepsComplete hrest.toChangesOnly)
    (hu'.keepsComplete hrest'.toChangesOnly)
  exact couples_readRest hfile faultTolerant sheet _ _ _ _ _ _
    (twins_of_readAtRules hk hk' hload hload' halike h h' htwins hheads hheads' hagree') hx hy

end

end BlockReader

end StyleBlocks
