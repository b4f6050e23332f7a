import StyleBlocks.Proofs.Session.Sound

/-!
# What is loaded while a block is read

Reading a block asks for other blocks in one place only: a reference or an export that names a file
has the block of that file loaded, before anything is done with it.  Everything else that reading does
is to change the record of the block itself.
-/

namespace StyleBlocks

variable {location : Location} {u : Unit} {w w' : Workspace}

namespace BlockReader

def path? (h : AtHead) : Option String :=
  if h.name = "block-reference" ∨ h.name = "export" then (Import.parse? h.params).bind (·.path)
  else none

/-- What an at-rule does once the block of the file that it names is loaded. -/
def applyAtRule (r : BlockReader) (target : Nat) (h : AtHead) : LoadM Unit :=
  r.readAtRule (fun _ => pure target) h

variable {r : BlockReader} {load : LoadStep}

/-- **An at-rule loads the block of the file that it names, and then does its own work.** -/
theorem readAtRule_eq (r : BlockReader) (load : LoadStep) (h : AtHead) :
    r.readAtRule load h = match path? h with
      | none => r.applyAtRule 0 h
      | some path => r.load load path h.location >>= fun m => r.applyAtRule m h := by
  have hpure : ∀ m path, r.load (fun _ => pure m) path h.location = pure m := fun _ _ => rfl
  unfold applyAtRule readAtRule path?
  by_cases href : h.name = "block-reference"
  · simp only [href, true_or, if_true, readReference]
    cases hparse : Import.parse? h.params with
    | none => rfl
    | some i =>
      obtain ⟨names, path⟩ := i
      cases path with
      | none => rfl
      | some path => simp only [Option.bind_some, hpure, pure_bind]
  · by_cases hexp : h.name = "export"
    · simp only [hexp, or_true, if_true, readExport]
      cases hparse : Import.parse? h.params with
      | none => rfl
      | some i =>
        obtain ⟨names, path⟩ := i
        cases path with
        | none => rfl
        | some path => simp [hpure]
    · simp only [href, hexp, or_self, if_false]

theorem load_eq_ok {path : String} {m : Nat} (h : (r.load load path location).run w = (.ok m, w')) :
    (load path).run w = (.ok m, w') := by
  unfold BlockReader.load at h
  rw [run_tryCatch] at h
  split at h
  · rename_i hrun
    rw [hrun, h]
  · cases h

theorem readAtRule_eq_ok {h : AtHead} (hx : (r.readAtRule load h).run w = (.ok u, w')) :
    path? h = none ∧ (r.applyAtRule 0 h).run w = (.ok u, w') ∨
      ∃ path m w₁, path? h = some path ∧ (load path).run w = (.ok m, w₁) ∧
        (r.applyAtRule m h).run w₁ = (.ok u, w') := by
  rw [readAtRule_eq] at hx
  cases hp : path? h with
  | none =>
    rw [hp] at hx
    exact .inl ⟨rfl, hx⟩
  | some path =>
    rw [hp] at hx
    obtain ⟨m, w₁, hload, hx⟩ := run_bind_ok hx
    exact .inr ⟨path, m, w₁, rfl, load_eq_ok hload, hx⟩

/-- What is exported is found in the exports of the file that is named, or in the block's own
references. -/
theorem exported_eq_ok {origin : Option (Nat × String)} {name : String} {t : Nat}
    (h : (r.exported origin name location).run w = (.ok t, w')) :
    w = w' ∧ (origin.elim ((w.catalog.block r.number).reference? name) fun e =>
      (w.catalog.block e.1).export? name) = some t := by
  refine ⟨(r.ordinary_exported (R := Eq) _ _ _).of_ok h, ?_⟩
  unfold exported at h
  split at h <;> (obtain ⟨b, w₁, hb, h⟩ := run_bind_ok h; cases hb; split at h)
  · rename_i hfound
    cases h
    exact hfound
  · cases h
  · rename_i hfound
    cases h
    exact hfound
  · cases h

theorem importExport_eq_ok {origin : Nat} {path : String} {names : String × String}
    (h : (r.importExport origin path location names).run w = (.ok u, w')) :
    ∃ t, (w.catalog.block origin).export? names.1 = some t ∧
      (r.introduce names.2 t location).run w = (.ok u, w') := by
  obtain ⟨b, w₁, hb, h⟩ := run_bind_ok h
  cases hb
  split at h
  · rename_i hfound
    exact ⟨_, hfound, h⟩
  · cases h

theorem ordinary_applyAtRule {γ : Type} {φ : Block → γ}
    (hreferences : ∀ b m, φ { b with references := m } = φ b)
    (hexports : ∀ b m, φ { b with exports := m } = φ b) (m : Nat) (head : AtHead) :
    LoadM.Ordinary (Workspace.EditsOnly φ r.number) (r.applyAtRule m head) := by
  have hload : ∀ path location, LoadM.Ordinary (Workspace.EditsOnly φ r.number)
      (r.load (fun _ => pure m) path location) := fun _ _ => .pure m
  have hoffer := r.ordinary_offer (φ := φ) hexports
  unfold applyAtRule readAtRule
  split
  · unfold readReference
    split
    · refine (hload _ _).bind fun target => ?_
      split
      · exact r.ordinary_introduce hreferences _ _ _
      · exact .forM fun names => r.ordinary_importExport hreferences _ _ _ names
    · exact r.ordinary_fail _ rfl
  · split
    · unfold readExport
      split
      · exact r.ordinary_fail _ rfl
      dsimp only
      split
      · exact (hload _ _).bind fun _ => .bind (.pure _) fun _ =>
          .forM fun names => hoffer _ _ _
      · exact .bind (.pure _) fun _ => .forM fun names => hoffer _ _ _
    · exact .pure _

/-! ## Reading -/

/-- What is read of a block once the blocks that it names are loaded. -/
def readRest (r : BlockReader) (faultTolerant : Bool) (sheet : Stylesheet) : LoadM Unit := do
  (sheet.nodes.filterMap head?).forM r.checkDebug
  sheet.rules.forM r.readRootDeclarations
  sheet.rules.forM r.readRule
  r.checkImplementations faultTolerant

theorem read_eq (r : BlockReader) (load : LoadStep) (faultTolerant : Bool) (sheet : Stylesheet) :
    r.read load faultTolerant sheet = (sheet.nodes.filterMap head?).forM (r.readAtRule load)
      >>= fun _ => r.readRest faultTolerant sheet :=
  rfl

/-- What only the rules change: the objects. -/
def besidesRules (b : Block) : (Nat × String × Option Stylesheet) × List StyleObject :=
  (Workspace.fixed b, b.objects)

theorem fixed_of_besidesRules {n : Nat} (h : w.EditsOnly besidesRules n w') :
    w.EditsOnly Workspace.fixed n w' :=
  { h with kept := congrArg Prod.fst h.kept }

theorem leads_readRest_by {R : Workspace → Workspace → Prop} [Std.Refl R] [IsTrans Workspace R]
    (r : BlockReader) (hedit : ∀ w w', w.EditsOnly besidesRules r.number w' → R w w')
    (hrule : ∀ rule, Leads R (r.readRule rule)) (faultTolerant : Bool) (sheet : Stylesheet) :
    Leads R (r.readRest faultTolerant sheet) := by
  refine (LoadM.Ordinary.forM r.ordinary_checkDebug).leads.bind fun _ => ?_
  refine Leads.bind (.forM fun rule _ => (r.leads_readRootDeclarations (fun _ _ _ => rfl)
    (fun _ _ => rfl) (fun _ _ => rfl) rule).mono hedit) fun _ => ?_
  refine Leads.bind (.forM fun rule _ => hrule rule) fun _ => ?_
  exact (r.ordinary_checkImplementations (fun _ _ => rfl) faultTolerant).leads.mono hedit

theorem leads_readRest (r : BlockReader) (faultTolerant : Bool) (sheet : Stylesheet) :
    Leads (Workspace.EditsOnly Workspace.fixed r.number) (r.readRest faultTolerant sheet) :=
  r.leads_readRest_by (fun _ _ => fixed_of_besidesRules)
    (fun rule => (r.ordinary_readRule (fun _ _ => rfl) rule).leads) faultTolerant sheet

variable {I : Workspace → Prop}

theorem readAtRules_keep (hload : ∀ path m w w', I w → (load path).run w = (.ok m, w') → I w')
    (happly : ∀ m h u w w', I w → (r.applyAtRule m h).run w = (.ok u, w') → I w')
    {heads : List AtHead} (h : (heads.forM (r.readAtRule load)).run w = (.ok u, w')) (hw : I w) :
    I w' := by
  refine forM_ok (fun _ w => I w) ?_ h hw
  rintro done head rest s s' - hs hstep
  obtain ⟨-, hstep⟩ | ⟨path, m, w₂, -, hpath, hstep⟩ := readAtRule_eq_ok hstep
  · exact happly _ _ _ _ _ hs hstep
  · exact happly _ _ _ _ _ (hload path m s w₂ hs hpath) hstep

/-- **What loading, rules and other changes of the block keep, reading keeps**, whether it fails or
not. -/
theorem leads_read_by (hedit : ∀ w w', w.EditsOnly besidesRules r.number w' → I w → I w')
    (hrule : ∀ rule, Leads (Keeps I) (r.readRule rule))
    (hload : ∀ path, Leads (Keeps I) (load path)) (faultTolerant : Bool)
    (sheet : Stylesheet) : Leads (Keeps I) (r.read load faultTolerant sheet) := by
  have happly : ∀ m h, Leads (Keeps I) (r.applyAtRule m h) := fun m h =>
    (ordinary_applyAtRule (fun _ _ => rfl) (fun _ _ => rfl) m h).leads.mono hedit
  rw [read_eq]
  refine Leads.bind (.forM fun h _ => ?_) fun _ =>
    r.leads_readRest_by (R := Keeps I) hedit hrule faultTolerant sheet
  rw [readAtRule_eq]
  split
  · exact happly 0 h
  · exact (Leads.tryCatch (hload _) fun e => .throw _).bind fun m => happly m h

section

variable (hedit : ∀ w w', w.EditsOnly Workspace.fixed r.number w' → I w → I w')

include hedit

theorem leads_read_of (hload : ∀ path, Leads (Keeps I) (load path)) (faultTolerant : Bool)
    (sheet : Stylesheet) : Leads (Keeps I) (r.read load faultTolerant sheet) :=
  leads_read_by (fun w w' h => hedit w w' (fixed_of_besidesRules h))
    (fun rule => (r.ordinary_readRule (fun _ _ => rfl) rule).leads.mono hedit) hload faultTolerant sheet

theorem read_keeps (hload : ∀ path m w w', I w → (load path).run w = (.ok m, w') → I w')
    {faultTolerant : Bool} {sheet : Stylesheet}
    (h : (r.read load faultTolerant sheet).run w = (.ok u, w')) (hw : I w) : I w' := by
  rw [read_eq] at h
  obtain ⟨_, w₁, hheads, h⟩ := run_bind_ok h
  refine hedit w₁ w' ((r.leads_readRest faultTolerant sheet).of_ok h) ?_
  refine readAtRules_keep hload (fun m h u w w' hw hx => ?_) hheads hw
  exact hedit w w' ((ordinary_applyAtRule (fun _ _ => rfl) (fun _ _ => rfl) m h).of_ok hx) hw

end

end BlockReader

end StyleBlocks
