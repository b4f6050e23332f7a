import StyleBlocks.Proofs.Session.Failures

/-!
# How often files are read

A traced load does what a load does and keeps a log of the files that it fetches and parses.  No file
stands in the log twice: a file that is loaded has its block from then on, and a file that cannot be
loaded ends the whole request.

Main result: `Session.Reachable.request_ends`.
-/

namespace StyleBlocks

open List

variable {loading : List String} {k : String} {e : BlockError} {α β : Type}

/-- A file is fetched, or its contents are parsed. -/
inductive Access where
  | fetch (identifier : String)
  | parse (identifier : String)
deriving DecidableEq, Repr

def Access.identifier : Access → String
  | fetch identifier => identifier
  | parse identifier => identifier

/-! ## Loading with a log -/

/-- A step of loading that keeps a log. -/
abbrev TraceM := ExceptT BlockError (StateM (Workspace × List Access))

namespace TraceM

def lift {α : Type} (x : LoadM α) : TraceM α :=
  ExceptT.mk fun s => match x.run s.1 with
    | (result, w) => (result, (w, s.2))

def note (a : Access) : TraceM Unit :=
  modify fun s => (s.1, s.2 ++ [a])

end TraceM

namespace BlockReader

def readAtRuleTraced (r : BlockReader) (load : String → TraceM Nat) (h : AtHead) : TraceM Unit :=
  match path? h with
  | none => .lift (r.applyAtRule 0 h)
  | some path => do
    let target ← tryCatch (load path) fun e => throw (e.locate (r.place h.location))
    .lift (r.applyAtRule target h)

def readTraced (r : BlockReader) (load : String → TraceM Nat) (faultTolerant : Bool)
    (sheet : Stylesheet) : TraceM Unit := do
  (sheet.nodes.filterMap head?).forM (r.readAtRuleTraced load)
  .lift (r.readRest faultTolerant sheet)

end BlockReader

namespace Library

def fillTraced (lib : Library) (n : Nat) (k : String) (load : String → TraceM Nat)
    (sheet : Stylesheet) (deps : List String) : TraceM Unit := do
  .lift (LoadM.modifyBlock n fun b =>
    ((lib.source.dependency? k).toList ++ deps).foldl Block.dependOn b)
  BlockReader.readTraced ⟨n, lib.source.displayName k⟩ load lib.options.faultTolerant sheet
  .lift (lib.register n k)

def begin (k : String) : LoadM Nat := do
  let w ← get
  set (w.start k)
  return w.next

def loadFileTraced (lib : Library) (k : String) (file : SourceFile) (load : String → TraceM Nat) :
    TraceM Nat := do
  .note (.parse k)
  let (sheet, deps) ← .lift (liftM (lib.readStylesheet k file))
  let n ← .lift (begin k)
  lib.fillTraced n k load sheet deps
  .lift (LoadM.modifyBlock n fun b => { b with stylesheet := some sheet })
  return n

def giveUp (k : String) (e : BlockError) : TraceM Nat := do
  .lift (modify fun w => { w with catalog := w.catalog.retract k })
  throw e

/-- The block with a given identifier, with a log of the files that are read for it. -/
def loadTraced (lib : Library) (loading : List String) (k : String) : TraceM Nat := do
  if hl : k ∈ loading then
    throw (.importing (.cycle (lib.circle loading k)) none)
  else
    match (← .lift get).catalog.byIdentifier? k with
    | some n => return n
    | none =>
      .note (.fetch k)
      match hf : lib.source.fetch k with
      | .error fault => throw (.importing fault none)
      | .ok file =>
        have := remaining_lt (Source.mem_identifiers_of_fetch hf) hl
        tryCatch (lib.loadFileTraced k file fun path =>
          lib.loadTraced (loading ++ [k]) (lib.identifier (some k) path)) (giveUp k)
termination_by lib.remaining loading

end Library

/-! ## What a traced step does -/

/-- From the workspace `w` the step leads to the outcome `out` and writes `l` behind the log. -/
def TraceM.Traces {α : Type} (x : TraceM α) (w : Workspace) (out : Except BlockError α × Workspace)
    (l : List Access) : Prop :=
  ∀ log, x.run (w, log) = (out.1, (out.2, log ++ l))

namespace TraceM.Traces

variable {x : TraceM α} {f : α → TraceM β} {handle : BlockError → TraceM α} {w w' : Workspace}
  {a : α} {l l' : List Access}

theorem lift (x : LoadM α) (w : Workspace) : (TraceM.lift x).Traces w (x.run w) [] := by
  intro log
  rw [append_nil]
  rfl

theorem lift_of {x : LoadM α} {out : Except BlockError α × Workspace} (h : x.run w = out) :
    (TraceM.lift x).Traces w out [] :=
  h ▸ lift x w

theorem note (a : Access) (w : Workspace) : (TraceM.note a).Traces w (.ok (), w) [a] :=
  fun _ => rfl

theorem pure (a : α) (w : Workspace) : (Pure.pure a : TraceM α).Traces w (.ok a, w) [] := by
  intro log
  rw [append_nil]
  rfl

theorem throw (e : BlockError) (w : Workspace) :
    (MonadExcept.throw e : TraceM α).Traces w (.error e, w) [] := by
  intro log
  rw [append_nil]
  rfl

theorem bind {out : Except BlockError β × Workspace} (hx : x.Traces w (.ok a, w') l)
    (hf : (f a).Traces w' out l') : (x >>= f).Traces w out (l ++ l') := by
  intro log
  rw [run_bind, hx log, ← append_assoc]
  exact hf (log ++ l)

theorem bind_error (hx : x.Traces w (.error e, w') l) : (x >>= f).Traces w (.error e, w') l := by
  intro log
  rw [run_bind, hx log]

theorem tryCatch (hx : x.Traces w (.ok a, w') l) :
    (MonadExcept.tryCatch x handle).Traces w (.ok a, w') l := by
  intro log
  rw [run_tryCatch, hx log]

theorem tryCatch_error {out : Except BlockError α × Workspace} (hx : x.Traces w (.error e, w') l)
    (hh : (handle e).Traces w' out []) : (MonadExcept.tryCatch x handle).Traces w out l := by
  intro log
  have := hh (log ++ l)
  rw [run_tryCatch, hx log]
  rwa [append_nil] at this

end TraceM.Traces

/-! ## Logs -/

/-- The log `l` fits a step from `w` to `out` while the files of `loading` are being loaded: no access
is repeated, none is to a file that is being loaded or has a block, once the step has succeeded each
file has its block, and each new block comes from a file that was fetched and parsed. -/
structure Access.Fits {α : Type} (loading : List String) (w : Workspace)
    (out : Except BlockError α × Workspace) (l : List Access) : Prop where
  nodup : l.Nodup
  fresh : ∀ a ∈ l, a.identifier ∉ loading ∧ w.catalog.byIdentifier? a.identifier = none
  kept : w.catalog.KeepsComplete out.2.catalog
  known : ∀ b, out.1 = .ok b → ∀ a ∈ l, ∃ n, (out.2.catalog.block n).IsComplete ∧
    (out.2.catalog.block n).identifier = a.identifier
  covers : ∀ n, (out.2.catalog.block n).IsComplete → (w.catalog.block n).IsComplete ∨
    .fetch (out.2.catalog.block n).identifier ∈ l ∧ .parse (out.2.catalog.block n).identifier ∈ l

namespace Access.Fits

variable {w w' : Workspace} {a : α} {l l' : List Access} {out : Except BlockError β × Workspace}

theorem nil (h : w.catalog.KeepsComplete out.2.catalog)
    (hback : out.2.catalog.KeepsComplete w.catalog) : Fits loading w out [] :=
  ⟨.nil, nofun, h, fun _ _ => nofun, fun _ hn => .inl (hback.isComplete hn)⟩

theorem of_error (h : Fits loading w ((.error e : Except BlockError α), w') l) {e' : BlockError} :
    Fits loading w ((.error e' : Except BlockError β), w') l :=
  ⟨h.nodup, h.fresh, h.kept, nofun, h.covers⟩

/-- **One step after another**: what the first has read has its block when the second begins. -/
theorem append (hw : w.Sound loading) (hw' : w'.Sound loading)
    (h : Fits loading w ((.ok a : Except BlockError α), w') l) (h' : Fits loading w' out l') :
    Fits loading w out (l ++ l') := by
  refine ⟨nodup_append.2 ⟨h.nodup, h'.nodup, ?_⟩, fun x hx => ?_, h.kept.trans h'.kept, ?_,
    fun n hn => ?_⟩
  · rintro x hx y hy rfl
    obtain ⟨n, hn, hid⟩ := h.known a rfl x hx
    have hlisted := hw'.listed n hn
    rw [hid, (h'.fresh x hy).2] at hlisted
    cases hlisted
  · rcases mem_append.1 hx with hx | hx
    · exact h.fresh x hx
    obtain ⟨hloading, hnone⟩ := h'.fresh x hx
    refine ⟨hloading, Option.eq_none_iff_forall_ne_some.2 fun n hn => ?_⟩
    -- a block that was there at first is still there
    obtain ⟨hid, -, hor⟩ := hw.known _ n hn
    have hcomplete := hor.resolve_left hloading
    have hlisted := hw'.listed n (h.kept.isComplete hcomplete)
    rw [h.kept n hcomplete, hid, hnone] at hlisted
    cases hlisted
  · intro b hb x hx
    rcases mem_append.1 hx with hx | hx
    · obtain ⟨n, hn, hid⟩ := h.known a rfl x hx
      exact ⟨n, h'.kept.isComplete hn, by rw [h'.kept n hn, hid]⟩
    · exact h'.known b hb x hx
  · rcases h'.covers n hn with hn' | ⟨hfetch, hparse⟩
    · rw [h'.kept n hn']
      exact (h.covers n hn').imp_right (And.imp (mem_append_left _) (mem_append_left _))
    · exact .inr ⟨mem_append_right _ hfetch, mem_append_right _ hparse⟩

/-- **A file that is read, and what is read for it**: `w'` is the workspace in which its block is
begun, and `inner` the outcome of filling it. -/
theorem enclose {inner : Except BlockError α × Workspace} (hk : k ∉ loading)
    (hnone : w.catalog.byIdentifier? k = none)
    (hold : ∀ k', w'.catalog.byIdentifier? k' = none → w.catalog.byIdentifier? k' = none)
    (hback : w'.catalog.KeepsComplete w.catalog)
    (h : Fits (loading ++ [k]) w' inner l) (hkept : w.catalog.KeepsComplete out.2.catalog)
    (hnew : ∀ n, (out.2.catalog.block n).IsComplete →
      inner.2.catalog.block n = out.2.catalog.block n ∨ (out.2.catalog.block n).identifier = k)
    (hdone : ∀ b, out.1 = .ok b → (∃ a, inner.1 = .ok a) ∧
      inner.2.catalog.KeepsComplete out.2.catalog ∧ ∃ n, (out.2.catalog.block n).IsComplete ∧
        (out.2.catalog.block n).identifier = k) :
    Fits loading w out (.fetch k :: .parse k :: l) := by
  have hfresh : ∀ x ∈ l, x.identifier ∉ loading ∧ x.identifier ≠ k := fun x hx => by
    simpa using (h.fresh x hx).1
  refine ⟨?_, fun x hx => ?_, hkept, fun b hb x hx => ?_, fun n hn => ?_⟩
  · refine nodup_cons.2 ⟨fun hmem => ?_, nodup_cons.2 ⟨fun hmem => ?_, h.nodup⟩⟩
    · rcases mem_cons.1 hmem with heq | hmem
      · cases heq
      · exact (hfresh _ hmem).2 rfl
    · exact (hfresh _ hmem).2 rfl
  · rcases mem_cons.1 hx with rfl | hx
    · exact ⟨hk, hnone⟩
    rcases mem_cons.1 hx with rfl | hx
    · exact ⟨hk, hnone⟩
    exact ⟨(hfresh x hx).1, hold _ (h.fresh x hx).2⟩
  · obtain ⟨⟨a, ha⟩, hkept, hself⟩ := hdone b hb
    rcases mem_cons.1 hx with rfl | hx
    · exact hself
    rcases mem_cons.1 hx with rfl | hx
    · exact hself
    obtain ⟨n, hn, hid⟩ := h.known a ha x hx
    exact ⟨n, hkept.isComplete hn, by rw [hkept n hn, hid]⟩
  · rcases hnew n hn with heq | heq
    · rw [← heq] at hn ⊢
      refine (h.covers n hn).imp hback.isComplete (And.imp ?_ ?_)
      all_goals exact fun hmem => mem_cons_of_mem _ (mem_cons_of_mem _ hmem)
    · rw [heq]
      exact .inr ⟨by simp, by simp⟩

end Access.Fits

/-- The traced step does what the step does, and its log fits. -/
def TraceM.Follows {α : Type} (x : TraceM α) (y : LoadM α) (loading : List String) (w : Workspace) :
    Prop :=
  ∃ l, x.Traces w (y.run w) l ∧ Access.Fits loading w (y.run w) l

namespace TraceM.Follows

variable {x : TraceM α} {y : LoadM α} {f : α → TraceM β} {g : α → LoadM β} {w : Workspace}

theorem lift (h : w.catalog.KeepsComplete (y.run w).2.catalog)
    (hback : (y.run w).2.catalog.KeepsComplete w.catalog) : (TraceM.lift y).Follows y loading w :=
  ⟨[], .lift y w, .nil h hback⟩

theorem lift_of_changesOnly {n : Nat} {w₀ : Workspace} (h : Workspace.Open loading k n w₀ w)
    (hc : w.ChangesOnly Workspace.fixed n (y.run w).2) :
    (TraceM.lift y).Follows y loading w :=
  .lift (h.keepsComplete hc) fun m hm =>
    (hc.others m ((h.of_changesOnly hc).ne_of_isComplete hm)).symm

theorem bind (hw : w.Sound loading) (hx : x.Follows y loading w)
    (hf : ∀ a w', y.run w = (.ok a, w') → w'.Sound loading ∧ (f a).Follows (g a) loading w') :
    (x >>= f).Follows (y >>= g) loading w := by
  obtain ⟨l, htraces, hfits⟩ := hx
  unfold Follows
  rw [run_bind]
  rcases hr : y.run w with ⟨e | a, w'⟩
  · rw [hr] at htraces hfits
    exact ⟨l, htraces.bind_error, hfits.of_error⟩
  · obtain ⟨hw', l', htraces', hfits'⟩ := hf a w' hr
    rw [hr] at htraces hfits
    exact ⟨l ++ l', htraces.bind htraces', .append hw hw' hfits hfits'⟩

theorem tryCatch_throw (hx : x.Follows y loading w) (φ : BlockError → BlockError) :
    (MonadExcept.tryCatch x fun e => throw (φ e)).Follows
      (MonadExcept.tryCatch y fun e => throw (φ e)) loading w := by
  obtain ⟨l, htraces, hfits⟩ := hx
  unfold Follows
  rw [run_tryCatch]
  rcases hr : y.run w with ⟨e | a, w'⟩
  · rw [hr] at htraces hfits
    exact ⟨l, htraces.tryCatch_error (.throw (φ e) w'), hfits.of_error⟩
  · rw [hr] at htraces hfits
    exact ⟨l, htraces.tryCatch, hfits⟩

end TraceM.Follows

/-! ## Reading -/

section

open Workspace

variable {w₀ w : Workspace} {load : LoadStep} {traced : String → TraceM Nat} (hk : k ∈ loading)
  (hload : load.Loads loading)
  (hfollows : ∀ path w, w.Sound loading → (traced path).Follows (load path) loading w)

namespace BlockReader

variable {r : BlockReader}

include hk hload

theorem open_readAtRule (h : Open loading k r.number w₀ w) {head : AtHead} {u : Unit}
    {w' : Workspace} (hx : (r.readAtRule load head).run w = (.ok u, w')) :
    Open loading k r.number w₀ w' := by
  have happly : ∀ m w, Open loading k r.number w₀ w → (r.applyAtRule m head).run w = (.ok u, w') →
      Open loading k r.number w₀ w' := fun m w ho hx =>
    ho.of_changesOnly
      ((ordinary_applyAtRule (fun _ _ => rfl) (fun _ _ => rfl) m head).of_ok hx).toChangesOnly
  obtain ⟨-, hx⟩ | ⟨path, m, w₁, -, hpath, hx⟩ := readAtRule_eq_ok hx
  · exact happly 0 w h hx
  · have ho := Library.leads_open_load hk hload path w h
    rw [hpath] at ho
    exact happly m w₁ ho hx

include hfollows

theorem follows_readAtRule (h : Open loading k r.number w₀ w) (head : AtHead) :
    (r.readAtRuleTraced traced head).Follows (r.readAtRule load head) loading w := by
  have happly : ∀ m w, Open loading k r.number w₀ w →
      (TraceM.lift (r.applyAtRule m head)).Follows (r.applyAtRule m head) loading w := fun m w ho =>
    .lift_of_changesOnly ho
      ((ordinary_applyAtRule (fun _ _ => rfl) (fun _ _ => rfl) m head).leads w).toChangesOnly
  unfold readAtRuleTraced
  rw [readAtRule_eq]
  cases path? head with
  | none => exact happly 0 w h
  | some path =>
    refine ((hfollows path w h.sound).tryCatch_throw _).bind h.sound fun m w' hrun => ?_
    have ho := Library.leads_open_load hk hload path w h
    rw [load_eq_ok hrun] at ho
    exact ⟨ho.sound, happly m w' ho⟩

theorem follows_readAtRules (h : Open loading k r.number w₀ w) (heads : List AtHead) :
    (heads.forM (r.readAtRuleTraced traced)).Follows (heads.forM (r.readAtRule load)) loading w := by
  induction heads generalizing w with
  | nil => exact ⟨[], .pure _ w, .nil (fun _ _ => rfl) fun _ _ => rfl⟩
  | cons head heads ih =>
    change (r.readAtRuleTraced traced head >>= fun _ => heads.forM _).Follows
      (r.readAtRule load head >>= fun _ => heads.forM _) loading w
    refine (follows_readAtRule hk hload hfollows h head).bind h.sound fun _ w' hrun => ?_
    have ho := open_readAtRule hk hload h hrun
    exact ⟨ho.sound, ih ho⟩

theorem follows_read (h : Open loading k r.number w₀ w) (faultTolerant : Bool)
    (sheet : Stylesheet) : (r.readTraced traced faultTolerant sheet).Follows
      (r.read load faultTolerant sheet) loading w := by
  refine (follows_readAtRules hk hload hfollows h _).bind h.sound fun _ w' hrun => ?_
  have ho : Open loading k r.number w₀ w' :=
    forM_ok (fun _ w => Open loading k r.number w₀ w)
      (fun _ _ _ _ _ _ ho hstep => open_readAtRule hk hload ho hstep) hrun h
  exact ⟨ho.sound, .lift_of_changesOnly ho (r.leads_readRest faultTolerant sheet w').toChangesOnly⟩

end BlockReader

/-! ## Loading -/

namespace Library

include hk hload hfollows

theorem follows_fill (lib : Library) {n : Nat} (h : Open loading k n w₀ w) (sheet : Stylesheet)
    (deps : List String) : (lib.fillTraced n k traced sheet deps).Follows
      (lib.fill n k load sheet deps) loading w := by
  refine TraceM.Follows.bind h.sound
    (.lift_of_changesOnly h (leads_dependOn (fun _ _ => rfl) n _ w).toChangesOnly)
    fun _ w₁ hdepend => ?_
  have h₁ := h.of_changesOnly ((leads_dependOn (fun _ _ => rfl) n _).of_ok hdepend).toChangesOnly
  refine ⟨h₁.sound, TraceM.Follows.bind h₁.sound
    (BlockReader.follows_read (r := ⟨n, _⟩) hk hload hfollows h₁ _ _) fun _ w₂ hread => ?_⟩
  have h₂ : Open loading k n w₀ w₂ :=
    (BlockReader.leads_read_of (r := ⟨n, _⟩) (fun _ _ hc ho => ho.of_changesOnly hc.toChangesOnly)
      (leads_open_load hk hload) _ _).of_ok hread h₁
  exact ⟨h₂.sound, .lift_of_changesOnly h₂
    (leads_register (fun _ _ => rfl) (fun _ _ => rfl) (fun _ _ _ _ => rfl) w₂)⟩

end Library

end

namespace Library

open Workspace TraceM

variable {lib : Library} {w : Workspace} {file : SourceFile}

/-- The traced step that loads the blocks which the file `k` names. -/
def loadFromTraced (lib : Library) (loading : List String) (k path : String) : TraceM Nat :=
  lib.loadTraced (loading ++ [k]) (lib.identifier (some k) path)

theorem traces_giveUp (k : String) (e : BlockError) (w : Workspace) :
    (giveUp k e).Traces w (.error e, { w with catalog := w.catalog.retract k }) [] :=
  Traces.bind (l := []) (.lift_of rfl) (.throw e _)

theorem traces_fetch {out : Except BlockError Nat × Workspace} {l : List Access} (hl : k ∉ loading)
    (hnone : w.catalog.byIdentifier? k = none) (hf : lib.source.fetch k = .ok file)
    (h : (tryCatch (lib.loadFileTraced k file (lib.loadFromTraced loading k)) (giveUp k)).Traces w
      out l) :
    (lib.loadTraced loading k).Traces w out (.fetch k :: l) := by
  rw [loadTraced, dif_neg hl]
  refine Traces.bind (l := []) (.lift_of rfl) ?_
  simp only [hnone]
  refine Traces.bind (l := [.fetch k]) (.note _ w) ?_
  split
  · rename_i fault hf'
    rw [hf] at hf'
    cases hf'
  · rename_i file' hf'
    obtain rfl : file = file' := Except.ok.inj (hf.symm.trans hf')
    exact h

theorem traces_fill {load : String → TraceM Nat} {sheet : Stylesheet} {deps : List String}
    {out : Except BlockError Unit × Workspace} {l : List Access}
    (hread : lib.readStylesheet k file = .ok (sheet, deps))
    (h : (lib.fillTraced w.next k load sheet deps).Traces (w.start k) out l) :
    (∀ e w', out = (.error e, w') →
      (lib.loadFileTraced k file load).Traces w (.error e, w') (.parse k :: l)) ∧
    ∀ w', out = (.ok (), w') → (lib.loadFileTraced k file load).Traces w
      (.ok w.next, w'.complete w.next sheet) (.parse k :: l) := by
  have hparse : (TraceM.lift (liftM (lib.readStylesheet k file) :
      LoadM (Stylesheet × List String))).Traces w (.ok (sheet, deps), w) [] := by
    rw [hread]
    exact .lift_of rfl
  have hbegin : (TraceM.lift (begin k)).Traces w (.ok w.next, w.start k) [] :=
    .lift_of rfl
  refine ⟨?_, ?_⟩
  · rintro e w' rfl
    exact Traces.bind (l := [.parse k]) (.note _ w)
      (Traces.bind (l := []) hparse (Traces.bind (l := []) hbegin h.bind_error))
  rintro w' rfl
  have hlast := h.bind (f := fun _ => do
    TraceM.lift (LoadM.modifyBlock w.next
      fun b => { b with stylesheet := some sheet })
    return w.next) (Traces.bind (l := []) (.lift_of rfl) (.pure _ _))
  rw [append_nil, append_nil] at hlast
  exact Traces.bind (l := [.parse k]) (.note _ w)
    (Traces.bind (l := []) hparse (Traces.bind (l := []) hbegin hlast))

theorem traces_fetch_error {fault : ImportFault} (hl : k ∉ loading)
    (hnone : w.catalog.byIdentifier? k = none) (hf : lib.source.fetch k = .error fault) :
    (lib.loadTraced loading k).Traces w (.error (.importing fault none), w) [.fetch k] := by
  rw [loadTraced, dif_neg hl]
  refine Traces.bind (l := []) (.lift_of rfl) ?_
  simp only [hnone]
  refine Traces.bind (l := [.fetch k]) (.note _ w) ?_
  split
  · rename_i fault' hf'
    obtain rfl : fault = fault' := Except.error.inj (hf.symm.trans hf')
    exact .throw _ w
  · rename_i file hf'
    rw [hf] at hf'
    cases hf'

theorem traces_parse_error {load : String → TraceM Nat}
    (hread : lib.readStylesheet k file = .error e) :
    (lib.loadFileTraced k file load).Traces w (.error e, w) [.parse k] := by
  refine Traces.bind (l := [.parse k]) (.note _ w) (Traces.bind_error ?_)
  rw [hread]
  exact .lift_of rfl

theorem byIdentifier?_of_start {k' : String} (h : (w.start k).catalog.byIdentifier? k' = none) :
    w.catalog.byIdentifier? k' = none := by
  have h := Catalog.byIdentifier?_startBlock.symm.trans h
  split at h
  · cases h
  · exact h

theorem follows_loadTraced (lib : Library) (loading : List String) (k : String) (w : Workspace)
    (hw : w.Sound loading) : (lib.loadTraced loading k).Follows (lib.load loading k) loading w := by
  suffices H : (lib.load loading k).run w = (lib.load loading k).run w → w.Sound loading →
      ∃ l, (lib.loadTraced loading k).Traces w ((lib.load loading k).run w) l ∧
        Access.Fits loading w ((lib.load loading k).run w) l from H rfl hw
  have hkept : ∀ loading k w out, (lib.load loading k).run w = out → w.Sound loading →
      w.catalog.KeepsComplete out.2.catalog := by
    rintro loading k w _ rfl hw
    exact (lib.loads_load loading k w hw).2.1.keepsComplete
  have hback : ∀ (w : Workspace) (k : String), (w.start k).catalog.KeepsComplete w.catalog :=
    fun w k m hm => (block_start_of_isComplete hm).2.symm
  refine load_induct (Q := fun loading k w out => (lib.load loading k).run w = out →
    w.Sound loading → ∃ l, (lib.loadTraced loading k).Traces w out l ∧ Access.Fits loading w out l)
    ?_ ?_ ?_ ?_ ?_ ?_ loading k w
  · intro loading k w hl _ _
    refine ⟨[], ?_, .nil (fun _ _ => rfl) fun _ _ => rfl⟩
    rw [loadTraced, dif_pos hl]
    exact .throw _ w
  · intro loading k w n hl hn _ _
    refine ⟨[], ?_, .nil (fun _ _ => rfl) fun _ _ => rfl⟩
    rw [loadTraced, dif_neg hl]
    refine Traces.bind (l := []) (.lift_of rfl) ?_
    simp only [hn]
    exact .pure n w
  · intro loading k w fault hl hnone hf _ _
    refine ⟨[.fetch k], traces_fetch_error hl hnone hf, by simp, fun a ha => ?_, fun _ _ => rfl,
      nofun, fun _ => .inl⟩
    rw [mem_singleton.1 ha]
    exact ⟨hl, hnone⟩
  · intro loading k w file e hl hnone hf hread hrun hw
    have hnil : Access.Fits (α := Unit) (loading ++ [k]) w (.error e, w) [] :=
      .nil (fun _ _ => rfl) fun _ _ => rfl
    exact ⟨_, traces_fetch hl hnone hf ((traces_parse_error hread).tryCatch_error
      (traces_giveUp k e w)), hnil.enclose hl hnone (fun _ h => h) (fun _ _ => rfl)
        (hkept _ _ _ _ hrun hw) (fun _ _ => .inl rfl) nofun⟩
  · intro loading k w file sheet deps e w' hl hnone hf hread ih hfill hrun hw
    obtain ⟨l, htraces, hfits⟩ := lib.follows_fill (by simp) (lib.loads_loadFrom loading k)
      (fun path w hw => ih path w rfl hw) (begun_start hw hnone).toOpen sheet deps
    unfold fillNew at hfill
    rw [hfill] at htraces hfits
    have hfile := (traces_fill hread htraces).1 e w' rfl
    exact ⟨_, traces_fetch hl hnone hf (hfile.tryCatch_error (traces_giveUp k e w')),
      hfits.enclose hl hnone (fun _ => byIdentifier?_of_start) (hback w k) (hkept _ _ _ _ hrun hw)
        (fun _ _ => .inl rfl) nofun⟩
  · intro loading k w file sheet deps w' hl hnone hf hread ih hfill hrun hw
    have hopen := open_fill (lib.loads_loadFrom loading k) hw hnone sheet deps lib
    rw [hfill] at hopen
    unfold fillNew at hfill
    obtain ⟨l, htraces, hfits⟩ := lib.follows_fill (by simp) (lib.loads_loadFrom loading k)
      (fun path w hw => ih path w rfl hw) (begun_start hw hnone).toOpen sheet deps
    rw [hfill] at htraces hfits
    have hfile := (traces_fill hread htraces).2 w' rfl
    have hself := block_complete_self hopen.lt sheet
    refine ⟨_, traces_fetch hl hnone hf hfile.tryCatch,
      hfits.enclose hl hnone (fun _ => byIdentifier?_of_start) (hback w k) (hkept _ _ _ _ hrun hw)
        (fun m _ => ?_) fun _ _ => ⟨⟨(), rfl⟩, ?_, w.next, ?_⟩⟩
    · by_cases hm : m = w.next
      · rw [hm, hself]
        exact .inr hopen.identifier
      · exact .inl (block_complete_of_ne hm sheet).symm
    · exact fun m hm => block_complete_of_ne (hopen.ne_of_isComplete hm) sheet
    · rw [hself]
      exact ⟨rfl, hopen.identifier⟩

end Library

/-! ## Sessions -/

namespace Session

/-- The block that the file `origin`, or nobody, names by a path, with a log of the files that are
read for it. -/
def requestTraced (s : Session) (origin : Option String) (path : String) :
    (Except BlockError Nat × Session) × List Access :=
  let out := (s.library.loadTraced [] (s.library.identifier origin path)).run (s.workspace, [])
  ((out.1, { s with workspace := out.2.1 }), out.2.2)

/-- **A request ends.**  Whatever the files of a session name, and in whatever circles, a request reads
no file twice: its log, which leaves out no file that a new block is made of, repeats nothing, and
holds no file that has a block already.  The request gives a block or says what is wrong, unless a file
has no GUID: then the search for one goes through taken GUIDs forever. -/
theorem Reachable.request_ends {s : Session} (hs : s.Reachable) (origin : Option String)
    (path : String) :
    (s.requestTraced origin path).1 = s.requestFrom origin path ∧
    (s.requestTraced origin path).2.Nodup ∧
    (∀ a ∈ (s.requestTraced origin path).2, s.catalog.byIdentifier? a.identifier = none) ∧
    (∀ k n, (s.requestFrom origin path).2.catalog.byIdentifier? k = some n →
      s.catalog.byIdentifier? k = some n ∨
        .fetch k ∈ (s.requestTraced origin path).2 ∧ .parse k ∈ (s.requestTraced origin path).2) ∧
    ∀ k, (s.requestFrom origin path).1 = .error (.noGuid k) →
      (s.requestFrom origin path).2.workspace.reservations.SearchesForever k := by
  obtain ⟨log, htraces, hfits⟩ := s.library.follows_loadTraced []
    (s.library.identifier origin path) s.workspace hs.sound
  have hout : s.requestTraced origin path = (s.requestFrom origin path, log) := by
    unfold requestTraced
    rw [htraces [], hs.requestFrom_eq]
    rfl
  rw [hout]
  refine ⟨rfl, hfits.nodup, fun a ha => (hfits.fresh a ha).2, fun k n hn => ?_, fun k hk => ?_⟩
  · have hafter := hs.request origin path
    rw [hs.requestFrom_eq] at hafter hn
    obtain ⟨hid, -, -⟩ := hafter.sound.known k n hn
    have hcomplete := hafter.isComplete_of_byIdentifier? hn
    refine (hfits.covers n hcomplete).imp (fun hn' => ?_) fun h => hid ▸ h
    rw [← hid]
    exact (congrArg (fun b : Block => s.catalog.byIdentifier? b.identifier) (hfits.kept n hn')).trans
      (hs.sound.listed n hn')
  · rw [hs.requestFrom_eq] at hk ⊢
    exact (s.library.justifies_load [] _ s.workspace hs.sound _ _ (Prod.ext hk rfl)).noGuid k rfl

/-- A file that names another one twice, and then itself. -/
def twiceNamed : Session :=
  .ofFiles [("base.css", ""),
    ("loop.css", "@block-reference b from \"base.css\"; " ++
      "@block-reference c from \"base.css\"; " ++ "@block-reference l from \"loop.css\";")] []

theorem twiceNamed_request : twiceNamed.catalog.byIdentifier? "base.css" = none ∧
    (twiceNamed.requestFrom none "loop.css").1.toOption = none ∧
    (twiceNamed.requestFrom none "loop.css").2.catalog.byIdentifier? "base.css" = some 1 := by
  decide +kernel

/-- The file that is named twice is fetched and parsed once. -/
theorem request_ends_twiceNamed : twiceNamed.Reachable ∧
    (twiceNamed.requestTraced none "loop.css").1 = twiceNamed.requestFrom none "loop.css" ∧
    (twiceNamed.requestTraced none "loop.css").2.count (.fetch "base.css") = 1 ∧
    (twiceNamed.requestTraced none "loop.css").2.count (.parse "base.css") = 1 := by
  have hs : twiceNamed.Reachable := reachable_ofFiles _ _
  obtain ⟨hsame, hnodup, -, hnew, -⟩ := Reachable.request_ends hs none "loop.css"
  obtain ⟨hbefore, -, hafter⟩ := twiceNamed_request
  obtain ⟨hfetch, hparse⟩ := (hnew "base.css" 1 hafter).resolve_left (by simp [hbefore])
  exact ⟨hs, hsame, List.count_eq_one_of_mem hnodup hfetch, List.count_eq_one_of_mem hnodup hparse⟩

/-- Two files with the same GUID, one of which names the other.  What the one would have instead is that
GUID again. -/
def sameGuids : Session :=
  .ofFiles [("xxblyh.css", ""),
    ("kbitev.css", "@block-reference other from \"xxblyh.css\";")] []

/-- The search for a GUID need not end. -/
theorem searchesForever_sameGuids :
    (sameGuids.requestFrom none "kbitev.css").1 = .error (.noGuid "kbitev.css") ∧
    (sameGuids.requestFrom none "kbitev.css").2.workspace.reservations.SearchesForever
      "kbitev.css" := by
  have hs : sameGuids.Reachable := reachable_ofFiles _ _
  have hresult : (sameGuids.requestFrom none "kbitev.css").1 = .error (.noGuid "kbitev.css") := by
    decide +kernel
  refine ⟨hresult, ?_⟩
  rw [hs.requestFrom_eq] at hresult ⊢
  exact (sameGuids.library.justifies_load [] _ sameGuids.workspace hs.sound _ _
    (Prod.ext hresult rfl)).noGuid _ rfl

end Session

end StyleBlocks
