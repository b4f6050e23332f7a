import StyleBlocks.Proofs.Session.Loading

/-!
# The names of blocks

A block asks for the name that its stylesheet gives it or, if that gives none, for a name made from
its file's.  It gets this name if no other block has it, and otherwise the name with a number behind
it.

Main result: `Session.Reachable.names_distinct`.
-/

namespace StyleBlocks

variable {l : List Declaration} {u : Unit}

def givenName? (l : List Declaration) : Option String :=
  (l.find? (·.property = "block-name")).map fun d =>
    BlockReader.trimQuotes (String.ofList (trim d.value.toList))

theorem givenName?_append (l l' : List Declaration) :
    givenName? (l ++ l') = (givenName? l).or (givenName? l') := by
  rw [givenName?, givenName?, givenName?, List.find?_append]
  cases l.find? (·.property = "block-name") <;> rfl

namespace Block

def askedName (b : Block) : String :=
  ((b.stylesheet.map Stylesheet.rootDeclarations).bind givenName?).getD (nameFromFile b.identifier)

/-- The block has the name that the declarations give it, or `name` if they give none. -/
structure NamedBy (b : Block) (name : String) (l : List Declaration) : Prop where
  isSet : b.nameIsSet = (givenName? l).isSome
  name : b.name = (givenName? l).getD name

theorem NamedBy.congr {b b' : Block} {name : String} (h : b.NamedBy name l)
    (hb : (b'.name, b'.nameIsSet) = (b.name, b.nameIsSet)) : b'.NamedBy name l := by
  obtain ⟨hname, hset⟩ := Prod.mk.inj hb
  exact ⟨hset.trans h.isSet, hname.trans h.name⟩

theorem NamedBy.rename {b b' : Block} {name given : String} {d : Declaration} (h : b.NamedBy name l)
    (hd : givenName? [d] = some given) (hb : b.rename given = .ok b') :
    b'.NamedBy name (l ++ [d]) := by
  unfold Block.rename at hb
  split at hb
  · cases hb
  rename_i hset
  cases hb
  have hnone : givenName? l = none := by
    simpa [hset] using h.isSet
  have hgiven : givenName? (l ++ [d]) = some given := by
    rw [givenName?_append, hnone, hd]
    rfl
  exact ⟨by rw [hgiven]; rfl, by rw [hgiven]; rfl⟩

end Block

/-! ## Reading the name -/

namespace BlockReader

open Workspace

variable {r : BlockReader} {w w' : Workspace} {name : String}

theorem namedBy_readRootDeclaration {isRoot : Bool} {d : Declaration}
    (hlt : r.number < w.next) (h : (w.catalog.block r.number).NamedBy name l)
    (hx : (r.readRootDeclaration isRoot d).run w = (.ok u, w')) :
    (w'.catalog.block r.number).NamedBy name (l ++ [d]) := by
  have hother : d.property ≠ "block-name" → givenName? (l ++ [d]) = givenName? l := by
    intro hd
    rw [givenName?_append]
    simp [givenName?, hd]
  unfold readRootDeclaration at hx
  dsimp only at hx
  split at hx
  · split at hx
    · rename_i hd
      unfold readName at hx
      dsimp only at hx
      split at hx
      · obtain ⟨b, hb, rfl⟩ := LoadM.updateBlock_eq_ok hx
        have hgiven : givenName? [d] = some (trimQuotes (String.ofList (trim d.value.toList))) := by
          simp [givenName?, hd]
        have hblock : (w.modifyBlock r.number fun _ => b).catalog.block r.number = b :=
          Catalog.block_modifyBlock_self hlt
        rw [hblock]
        exact h.rename hgiven hb
      · cases hx
    · rename_i hd
      have hkept : w.EditsOnly (fun b => (b.name, b.nameIsSet)) r.number w' := by
        split at hx
        · exact (r.leads_readBase (fun _ _ => rfl) _ _).of_ok hx
        · exact (r.ordinary_readImplements (fun _ _ => rfl) _ _).of_ok hx
      have hb := h.congr hkept.kept
      exact ⟨hother hd ▸ hb.isSet, hother hd ▸ hb.name⟩
  · cases hx

/-- **A block that is read with success** has the name that its stylesheet gives it, or the one that it
had. -/
theorem name_of_read {loading : List String} {k : String} {w₀ : Workspace} {load : LoadStep}
    (hk : k ∈ loading) (hload : load.Loads loading)
    (h : Begun loading k r.number w₀ w) (hname : (w.catalog.block r.number).nameIsSet = false)
    {faultTolerant : Bool} {sheet : Stylesheet}
    (hx : (r.read load faultTolerant sheet).run w = (.ok u, w')) :
    (w'.catalog.block r.number).name
      = (givenName? sheet.rootDeclarations).getD (w.catalog.block r.number).name := by
  obtain ⟨_, w₁, h₁, hx⟩ := run_bind_ok hx
  obtain ⟨_, w₂, h₂, hx⟩ := run_bind_ok hx
  obtain ⟨_, w₃, h₃, hx⟩ := run_bind_ok hx
  obtain ⟨_, w₄, h₄, h₅⟩ := run_bind_ok hx
  obtain ⟨hopen, hkept⟩ := readAtRules_kept (φ := fun b => (b.name, b.nameIsSet)) (fun _ _ => rfl)
    (fun _ _ => rfl) hk hload h.toOpen h₁
  obtain rfl : w₁ = w₂ := (LoadM.Ordinary.forM (R := Eq) r.ordinary_checkDebug).of_ok h₂
  have h₀ : (w.catalog.block r.number).NamedBy (w.catalog.block r.number).name [] := ⟨hname, rfl⟩
  have hn₃ := readRootDeclarations_induct
    (J := fun done b => b.NamedBy (w.catalog.block r.number).name done)
    (fun _ _ _ _ _ _ => namedBy_readRootDeclaration) hopen.lt (h₀.congr hkept) h₃
  have h₄ := (LoadM.Ordinary.forM fun rule => r.ordinary_readRule (φ := Block.name) (fun _ _ => rfl)
    rule).of_ok h₄
  have h₅ := (r.ordinary_checkImplementations (φ := Block.name) (fun _ _ => rfl)
    faultTolerant).of_ok h₅
  exact h₅.kept.trans (h₄.kept.trans hn₃.name)

end BlockReader

/-! ## Loading -/

/-- The block has the name for which it asked, or this name with a number from two on. -/
def Block.NameFits (b : Block) : Prop :=
  b.name = b.askedName ∨ ∃ i, 2 ≤ i ∧ b.name = Reservations.numbered b.askedName i

/-- The names of all complete blocks fit. -/
def Workspace.NamesFit (w : Workspace) : Prop :=
  ∀ m, (w.catalog.block m).IsComplete → (w.catalog.block m).NameFits

namespace Library

open Workspace

variable {lib : Library} {loading : List String} {k : String} {w w' : Workspace}

section

variable {load : LoadStep} (hload : load.Loads (loading ++ [k]))
  (hw : w.Sound loading) (hnone : w.catalog.byIdentifier? k = none) {sheet : Stylesheet}
  {deps : List String}

include hload hw hnone

theorem name_of_fill
    (h : lib.fillNew w k load sheet deps = (.ok u, w')) :
    ∃ w₂, Linked (loading ++ [k]) k w.next (w.start k) w₂ ∧
      (w₂.catalog.block w.next).name
        = (givenName? sheet.rootDeclarations).getD (nameFromFile k) ∧
      (lib.register w.next k).run w₂ = (.ok u, w') := by
  obtain ⟨w₁, w₂, d, hb₁, -, hblock, h₂, h₃⟩ := fill_eq_ok hw hnone sheet deps h
  have hname := BlockReader.name_of_read (r := ⟨w.next, _⟩) (by simp) hload hb₁
    (by rw [hblock]; rfl) h₂
  obtain ⟨hl₂, -⟩ := BlockReader.read_ok (r := ⟨w.next, _⟩) (by simp) hload hb₁ h₂
  rw [hblock] at hname
  exact ⟨w₂, hl₂, hname, h₃⟩

theorem nameFits_of_fill
    (h : lib.fillNew w k load sheet deps = (.ok u, w')) :
    Block.NameFits { w'.catalog.block w.next with stylesheet := some sheet } := by
  have hopen := open_fill hload hw hnone sheet deps lib
  rw [h] at hopen
  obtain ⟨w₂, hl₂, hname, h₃⟩ := name_of_fill hload hw hnone h
  obtain ⟨-, unique, w₃, hreserve, -, hunique, hidentify⟩ := register_eq_ok hl₂.lt h₃
  have hkept := ((leads_identify (φ := Block.name) (fun _ _ => rfl)
    fun _ _ _ _ => rfl).of_ok hidentify).kept
  have hasked : Block.askedName
      { w'.catalog.block w.next with stylesheet := some sheet }
      = (w₂.catalog.block w.next).name := by
    rw [hname, ← hopen.identifier]
    rfl
  rw [Block.NameFits, hasked]
  rw [hkept, hunique]
  obtain ⟨rfl, -⟩ | ⟨-, hnumbered⟩ := Reservations.eq_or_numbered_of_reserveName hreserve
  · exact .inl rfl
  · exact .inr hnumbered

end

/-- **Loading gives blocks names that fit**, whether it fails or not. -/
theorem namesFit_load (lib : Library) (loading : List String) (k : String) (w : Workspace)
    (hw : w.Sound loading) (h : w.NamesFit) : ((lib.load loading k).run w).2.NamesFit := by
  refine allComplete_load (P := fun g m => (g.block m).NameFits) ?_ ?_ loading k w hw h
  · intro _ w g m _ hk hm h
    rwa [hk m hm]
  · intro loading k w sheet deps w' hw hnone hrun
    have hload := lib.loads_loadFrom loading k
    have hopen := open_fill hload hw hnone sheet deps lib
    rw [hrun] at hopen
    rw [block_complete_self hopen.lt]
    exact nameFits_of_fill hload hw hnone hrun

end Library

/-! ## Sessions -/

namespace Session

theorem Reachable.namesFit {s : Session} (h : Reachable s) : s.workspace.NamesFit := by
  refine h.workspace_induct (P := fun _ w => w.NamesFit) (fun _ m hm => ?_)
    fun _ _ _ => Library.namesFit_load _ _ _ _
  cases m <;> cases hm

/-- **The names of a session's blocks.**  After any requests, successful or not, the block to which an
identifier leads has an identifier for its name: the one for which it asked, or that one with a number
from two on.  No other block to which an identifier leads has the same name. -/
theorem Reachable.names_distinct {s : Session} (hs : s.Reachable) {k : String} {n : Nat}
    (hn : s.catalog.byIdentifier? k = some n) :
    isIdentifier (s.catalog.block n).name = true ∧ (s.catalog.block n).NameFits ∧
      ∀ k' n', s.catalog.byIdentifier? k' = some n' → n ≠ n' →
        (s.catalog.block n).name ≠ (s.catalog.block n').name := by
  have hcomplete := hs.isComplete_of_byIdentifier? hn
  obtain ⟨sheet, hsheet⟩ := Option.isSome_iff_exists.1 hcomplete
  refine ⟨(hs.sound.soundAt n sheet hsheet).name, hs.namesFit n hcomplete, ?_⟩
  intro k' n' hn' hne hname
  exact hne (hs.sound.eq_of_name hcomplete (hs.isComplete_of_byIdentifier? hn') hname)

/-- Two files that ask for one name, after a third one that asks for the name which the second of them
is to get. -/
def threeNavs : Session :=
  .ofFiles [("main.css", ":scope \x7b block-name: nav-2 \x7d"), ("one/nav.css", ""),
    ("two/nav.css", "")] ["main.css", "one/nav.css", "two/nav.css"]

theorem threeNavs_names : threeNavs.catalog.byIdentifier? "main.css" = some 0 ∧
    threeNavs.catalog.byIdentifier? "one/nav.css" = some 1 ∧
    threeNavs.catalog.byIdentifier? "two/nav.css" = some 2 ∧
    (threeNavs.catalog.block 1).name = "nav" ∧ (threeNavs.catalog.block 2).name = "nav-3" := by
  decide +kernel

theorem names_distinct_threeNavs : (threeNavs.catalog.block 2).name = "nav-3" ∧
    isIdentifier (threeNavs.catalog.block 2).name = true ∧ (threeNavs.catalog.block 2).NameFits ∧
    (threeNavs.catalog.block 2).name ≠ (threeNavs.catalog.block 0).name := by
  obtain ⟨hmain, -, htwo, -, hname⟩ := threeNavs_names
  obtain ⟨hid, hfits, hdistinct⟩ :=
    Reachable.names_distinct (s := threeNavs) (reachable_ofFiles _ _) htwo
  exact ⟨hname, hid, hfits, hdistinct "main.css" 0 hmain (by decide)⟩

end Session

end StyleBlocks
