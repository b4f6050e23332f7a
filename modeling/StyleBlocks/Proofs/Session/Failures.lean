import StyleBlocks.Proofs.Session.Loading

/-!
# What failures of loading mean

Most errors say what is wrong with a file.  Two of them say something about the workspace: that a block
would extend itself, which never arises, and that no GUID is left for a block, which arises only where
the search for one never ends.

* `Library.justifies_load`: **loading fails with justified errors only.**
-/

namespace StyleBlocks

variable {load : LoadStep} {w₀ : Workspace} {e : BlockError} {k : String}

/-! ## Errors -/

namespace BlockError

/-- A step that has failed with the error in the workspace has done so with a reason: no block would
extend itself, and a block for which no GUID is left would be searched one forever. -/
structure Justified (e : BlockError) (w : Workspace) : Prop where
  noCircle : ∀ name place, e ≠ .block (.cyclicBase name) place
  noGuid : ∀ k, e = .noGuid k → w.reservations.SearchesForever k

variable {w w' : Workspace}

theorem Justified.of_isOrdinary (h : e.isOrdinary = true) : e.Justified w := by
  constructor
  · rintro name place rfl
    cases h
  · rintro k rfl
    cases h

theorem Justified.congr (h : e.Justified w) (hw : w'.reservations = w.reservations) :
    e.Justified w' :=
  ⟨h.noCircle, fun k hk => by rw [hw]; exact h.noGuid k hk⟩

theorem Justified.locate (h : e.Justified w) (place : Place) : (e.locate place).Justified w := by
  cases ho : e.isOrdinary with
  | true => exact .of_isOrdinary (by rwa [isOrdinary_locate])
  | false =>
    -- the other errors have a place already, or none at all
    cases e with
    | noGuid k => exact h
    | block fault place' =>
      cases fault with
      | cyclicBase name => exact absurd rfl (h.noCircle name place')
      | _ => cases ho
    | _ => cases ho

end BlockError

/-! ## Steps -/

/-- From the workspace on, the step fails with justified errors only. -/
def LoadM.Justifies {α : Type} (x : LoadM α) (w : Workspace) : Prop :=
  ∀ e w', x.run w = (.error e, w') → e.Justified w'

namespace LoadM.Justifies

variable {α β : Type} {x : LoadM α} {f : α → LoadM β} {w : Workspace}

theorem pure (a : α) : (Pure.pure a : LoadM α).Justifies w :=
  fun _ _ h => by cases h

theorem throw_of (he : e.Justified w) : (MonadExcept.throw e : LoadM α).Justifies w := by
  intro e' w' h
  cases h
  exact he

theorem throw (he : e.isOrdinary = true) : (MonadExcept.throw e : LoadM α).Justifies w :=
  .throw_of (.of_isOrdinary he)

theorem bind (hx : x.Justifies w) (hf : ∀ a w', x.run w = (.ok a, w') → (f a).Justifies w') :
    (x >>= f).Justifies w := by
  intro e w' h
  rw [run_bind] at h
  rcases hr : x.run w with ⟨e' | a, w₁⟩
  · rw [hr] at h
    cases h
    exact hx e w' hr
  · rw [hr] at h
    exact hf a w₁ hr e w' h

theorem forM_of {f : α → LoadM PUnit} {l : List α} (I : Workspace → Prop)
    (hI : ∀ a w w', I w → (f a).run w = (.ok ⟨⟩, w') → I w')
    (hf : ∀ a w, I w → (f a).Justifies w) (hw : I w) : (l.forM f).Justifies w := by
  induction l generalizing w with
  | nil => exact .pure _
  | cons a l ih =>
    exact (hf a w hw).bind fun _ w' hr => ih (hI a w w' hw hr)

theorem tryCatch {handle : BlockError → LoadM α} (hx : x.Justifies w)
    (hh : ∀ e w', e.Justified w' → (handle e).Justifies w') :
    (MonadExcept.tryCatch x handle).Justifies w := by
  intro e w' h
  rw [run_tryCatch] at h
  rcases hr : x.run w with ⟨e' | a, w₁⟩
  · rw [hr] at h
    exact hh e' w₁ (hx e' w₁ hr) e w' h
  · rw [hr] at h
    cases h

theorem of_run_ok {a : α} {w' : Workspace} (h : x.run w = (.ok a, w')) : x.Justifies w := by
  intro e w₁ he
  rw [h] at he
  cases he

theorem of_ordinary {R : Workspace → Workspace → Prop} (h : Ordinary R x) : x.Justifies w :=
  fun e _ hx => .of_isOrdinary (h.error w e (congrArg Prod.fst hx))

end LoadM.Justifies

/-! ## Reading -/

namespace BlockReader

open Workspace LoadM

variable {r : BlockReader} {w : Workspace} {loading : List String}

theorem justifies_readAtRule (hload : ∀ path, (load path).Justifies w) (head : AtHead) :
    (r.readAtRule load head).Justifies w := by
  have happly : ∀ m w, (r.applyAtRule m head).Justifies w := fun m _ =>
    .of_ordinary (ordinary_applyAtRule (φ := fun _ => ()) (fun _ _ => rfl) (fun _ _ => rfl) m head)
  rw [readAtRule_eq]
  split
  · exact happly 0 w
  · exact .bind (.tryCatch (hload _) fun e _ he => .throw_of (he.locate _)) fun m _ _ => happly m _

/-- **The block that is extended** is complete, and so are its ancestors, but the block that is being
read is not. -/
theorem justifies_readBase (h : Linked loading k r.number w₀ w) (name : String)
    (location : Location) : (r.readBase name location).Justifies w := by
  refine .bind (.of_ordinary (r.ordinary_reference (R := Eq) _ _)) fun base w' href => ?_
  obtain ⟨rfl, -, hbase⟩ := reference_ok h href
  refine .bind (.of_run_ok rfl) fun w₁ w₂ hget => ?_
  cases hget
  dsimp only
  split
  · exact .throw rfl
  have hne : base ≠ r.number := h.ne_of_isComplete hbase
  have hancestors : w.catalog.isExtendedBy r.number base = false := by
    rw [Catalog.isExtendedBy, List.contains_eq_mem, decide_eq_false_iff_not]
    exact fun hmem => h.ne_of_isComplete ((h.sound.chain hbase).2 _ hmem) rfl
  rw [if_neg (by simp [hne, hancestors])]
  exact .of_run_ok rfl

theorem justifies_readRootDeclarations (h : Linked loading k r.number w₀ w) (rule : Rule) :
    (r.readRootDeclarations rule).Justifies w := by
  unfold readRootDeclarations
  dsimp only
  split
  · have hselectors := r.ordinary_selectors (R := Eq) rule
    refine .bind (.of_ordinary hselectors) fun selectors w' hsel => ?_
    obtain rfl : w = w' := hselectors.of_ok hsel
    refine .forM_of (Linked loading k r.number w₀)
      (fun d w w' hw hx => readRootDeclaration_ok hw hx) (fun d w hw => ?_) h
    unfold readRootDeclaration
    dsimp only
    split
    · split
      · exact .of_ordinary (r.ordinary_readName (φ := fun _ => ()) (fun _ _ _ => rfl) _ _)
      · split
        · exact justifies_readBase hw _ _
        · exact .of_ordinary (r.ordinary_readImplements (φ := fun _ => ()) (fun _ _ => rfl) _ _)
    · exact .throw rfl
  · exact .pure _

theorem justifies_read (hk : k ∈ loading) (hload : load.Loads loading)
    (hno : ∀ path w, w.Sound loading → (load path).Justifies w) (h : Begun loading k r.number w₀ w)
    (faultTolerant : Bool) (sheet : Stylesheet) :
    (r.read load faultTolerant sheet).Justifies w := by
  unfold read
  refine .bind (.forM_of (Begun loading k r.number w₀)
    (fun _ _ _ hw hx => readAtRule_ok hk hload hw hx)
    (fun head w hw => justifies_readAtRule (fun path => hno path w hw.sound) head) h) fun _ w₁ h₁ => ?_
  have hs₁ : Begun loading k r.number w₀ w₁ :=
    forM_ok (fun _ w => Begun loading k r.number w₀ w)
      (fun _ _ _ _ _ _ hs hstep => readAtRule_ok hk hload hs hstep) h₁ h
  have hdebug := Ordinary.forM (R := Eq) (l := sheet.nodes.filterMap head?) r.ordinary_checkDebug
  refine .bind (.of_ordinary hdebug) fun _ w₂ h₂ => ?_
  obtain rfl : w₁ = w₂ := hdebug.of_ok h₂
  refine .bind (.forM_of (Linked loading k r.number w₀)
    (fun _ _ _ hw hx => readRootDeclarations_ok hw hx)
    (fun rule w hw => justifies_readRootDeclarations hw rule) hs₁.toLinked) fun _ _ _ => ?_
  refine .of_ordinary (R := EditsOnly (fun _ => ()) r.number) (.bind (.forM fun rule => ?_) fun _ => ?_)
  · exact r.ordinary_readRule (fun _ _ => rfl) rule
  · exact r.ordinary_checkImplementations (fun _ _ => rfl) faultTolerant

end BlockReader

/-! ## Loading -/

namespace Library

open Workspace LoadM

variable {lib : Library} {loading : List String} {w : Workspace}

theorem justifies_register (n : Nat) : (lib.register n k).Justifies w := by
  have hidentify : ∀ w, (lib.identify n k).Justifies w := by
    intro w
    refine .bind (.of_run_ok rfl) fun w₁ w₂ hget => ?_
    cases hget
    split
    · rename_i hnone
      refine .throw_of ⟨nofun, fun k' hk' => ?_⟩
      cases hk'
      exact Reservations.reserveGuid_eq_none_iff.1 hnone
    rename_i guid collision reservations hreserve
    split
    · exact .pure _
    split
    · exact .of_run_ok rfl
    refine .throw ?_
    obtain ⟨_, _, rfl⟩ := Reservations.eq_duplicateGuid_of_reserveGuid hreserve
    rfl
  refine .bind (.of_run_ok rfl) fun b w _ => ?_
  dsimp only
  split
  · exact .bind (.throw rfl) fun _ _ h => by cases h
  refine .bind (.of_run_ok rfl) fun w₁ w₂ hget => ?_
  cases hget
  refine .bind (fun e w' he => ?_) fun reserved _ _ => ?_
  · refine .of_isOrdinary ?_
    unfold Reservations.reserveName at he
    split at he
    · cases he
    split at he
    · cases he
    split at he
    · cases he
    · cases he
      rfl
  · split
    · exact .bind (.of_run_ok rfl) fun _ _ _ => hidentify _
    · exact hidentify _

theorem isOrdinary_of_preprocess {file : ImportedFile} {filename : String}
    (h : lib.preprocess file filename = .error e) : e.isOrdinary = true := by
  unfold preprocess at h
  split at h
  · rename_i p _
    cases hp : p file lib.options <;> rw [hp] at h <;> cases h
    rfl
  split at h <;> cases h
  rfl

theorem justifies_readStylesheet {file : SourceFile} (h : lib.readStylesheet k file = .error e) :
    e.isOrdinary = true := by
  unfold readStylesheet at h
  cases hp : lib.preprocess ⟨file, k, nameFromFile k⟩ (lib.source.displayName k) with
  | error e' =>
    simp only [hp] at h
    cases h
    exact isOrdinary_of_preprocess hp
  | ok processed =>
    simp only [hp] at h
    change (pure processed >>= _) = Except.error e at h
    rw [pure_bind] at h
    split at h <;> cases h
    rename_i e' _
    cases e' <;> rfl

theorem justifies_fill (hload : load.Loads (loading ++ [k]))
    (hno : ∀ path w, w.Sound (loading ++ [k]) → (load path).Justifies w) (hw : w.Sound loading)
    (hnone : w.catalog.byIdentifier? k = none) (sheet : Stylesheet) (deps : List String) :
    (lib.fill w.next k load sheet deps).Justifies
      (w.start k) := by
  refine .bind (.of_run_ok rfl) fun _ w₁ h₁ => ?_
  exact .bind (BlockReader.justifies_read (r := ⟨w.next, _⟩) (by simp) hload hno
    (begun_dependOn hw hnone h₁) _ _) fun _ _ _ => justifies_register _

theorem justifies_load (lib : Library) (loading : List String) (k : String) (w : Workspace)
    (hw : w.Sound loading) : (lib.load loading k).Justifies w := by
  suffices H : w.Sound loading → ∀ e, ((lib.load loading k).run w).1 = .error e →
      e.Justified ((lib.load loading k).run w).2 by
    intro e w' h
    have := H hw e (congrArg Prod.fst h)
    rwa [h] at this
  refine load_induct (Q := fun loading k w out => w.Sound loading → ∀ e, out.1 = .error e →
    e.Justified out.2) ?_ ?_ ?_ ?_ ?_ ?_ loading k w
  · intro _ _ _ _ _ _ he
    cases he
    exact .of_isOrdinary rfl
  · intro _ _ _ _ _ _ _ _ he
    cases he
  · intro _ _ _ _ _ _ _ _ _ he
    cases he
    exact .of_isOrdinary rfl
  · intro _ _ _ _ _ _ _ _ hread _ _ he
    cases he
    exact .of_isOrdinary (justifies_readStylesheet hread)
  · intro loading k w file sheet deps e w' _ hnone _ _ ih hrun hw _ he
    cases he
    have hfill : e.Justified w' := justifies_fill (lib.loads_loadFrom loading k)
      (fun path w hw e w' h => by
        have := ih path w hw e (congrArg Prod.fst h)
        rwa [h] at this) hw hnone sheet deps e w' hrun
    exact hfill.congr rfl
  · intro _ _ _ _ _ _ _ _ _ _ _ _ _ _ _ he
    cases he

end Library

end StyleBlocks
