import StyleBlocks.CommandLine
import StyleBlocks.Proofs.FileName
import StyleBlocks.Proofs.Source.Disk

/-!
# The files that a run writes

Each input's output goes to a file that is named after the input's file alone, so two inputs whose
names are the same up to the first point share their output file, and the later one has it.

Main result: `CommandLine.keepsOutputs_iff`.
-/

namespace StyleBlocks

open FileName List

/-! ## Names of output files -/

variable {u : Unit}

theorem slash_not_mem_nameFromFile (file : String) : '/' ∉ (nameFromFile file).toList := by
  unfold nameFromFile
  intro h
  rw [String.toList_ofList] at h
  have hmem := (List.takeWhile_prefix _).subset h
  cases hlast : (pieces (fun c => c == '/' || c == '\\') file.toList).getLast? with
  | none => simp [hlast] at hmem
  | some piece =>
    rw [hlast] at hmem
    have hslash := not_of_mem_pieces (mem_of_getLast? hlast) hmem
    cases hslash

namespace CommandLine

variable {minify : Minifier} {a : Arguments} {p q : Progress}
  {directory file other extension : String}

theorem toList_inside (directory name : String) :
    ∃ s, (inside directory name).toList = s ++ '/' :: name.toList := by
  unfold inside
  split
  · rename_i h
    rw [String.endsWith_eq_endsWith_toSlice, String.Slice.endsWith_string_iff,
      String.copy_toSlice] at h
    obtain ⟨s, hs⟩ := h
    refine ⟨s, ?_⟩
    rw [String.toList_append, ← hs, append_assoc]
    rfl
  · refine ⟨directory.toList, ?_⟩
    rw [String.toList_append, String.toList_append, append_assoc]
    rfl

theorem components_inside {name : String} (hslash : '/' ∉ name.toList)
    (hlong : 3 ≤ name.toList.length) :
    (components (inside directory name)).getLast? = some (.name name) := by
  obtain ⟨s, hs⟩ := toList_inside directory name
  have hpart : partOf? name.toList = some (.name name) := by
    have hne : ∀ t : List Char, t.length < 3 → (name.toList == t) = false := by
      intro t ht
      refine beq_false_of_ne fun heq => ?_
      rw [heq] at hlong
      omega
    unfold partOf?
    rw [← beq_nil_eq, hne _ (by decide), hne _ (by decide), hne _ (by decide), String.ofList_toList]
    rfl
  have hname : partsOf name.toList = [.name name] := by
    rw [partsOf, splitOn_eq_singleton hslash, filterMap_cons, hpart]
    rfl
  rw [components_eq, hs, partsOf_append_slash, hname, ← append_assoc, getLast?_concat]

theorem components_destination (directory file : String) (hextension : extension ∈ ["css", "json"]) :
    (components (destination directory file extension)).getLast?
      = some (.name (nameFromFile file ++ "." ++ extension)) := by
  have hfile := slash_not_mem_nameFromFile file
  simp only [mem_cons, not_mem_nil, or_false] at hextension
  rcases hextension with rfl | rfl <;> exact components_inside (by simp [hfile]) (by simp)

theorem read_of_write_destination {d d' : Disk} {contents c e : String}
    (hextension : extension ∈ ["css", "json"]) (he : e ∈ ["css", "json"])
    (hne : nameFromFile other ++ "." ++ e ≠ nameFromFile file ++ "." ++ extension)
    (hwrite : d.write (destination directory file extension) contents = some d')
    (hread : d.read (destination directory other e) = .ok c) :
    d'.read (destination directory other e) = .ok c := by
  refine Disk.read_write_of_ne hwrite (fun heq => hne ?_) hread
  obtain ⟨spot, hspot, -⟩ := Disk.read_eq_ok_iff.1 hread
  have hother := Disk.getLast?_of_locate (components_destination directory other he) hspot
  have hfile := Disk.getLast?_of_locate (components_destination directory file hextension)
    (heq ▸ hspot)
  exact PathPart.name.inj (Option.some.inj (hother.symm.trans hfile))

/-! ## One input -/

/-- The text that a file which is the next input is compiled to, minified if that is asked for. -/
def css? (minify : Minifier) (p : Progress) (file : String) : Option String :=
  (p.session.compilePath minify file).1.toOption

theorem loadBlock_ok {n : Nat} (h : (loadBlock file).run p = (.ok n, q)) :
    p.session.request file = (.ok n, q.session) ∧ q.disk = p.disk := by
  obtain ⟨s, t, hget, h⟩ := run_bind_ok h
  cases hget
  rcases hrequest : p.session.request file with ⟨result, session⟩
  rw [hrequest] at h
  obtain ⟨_, t, hset, h⟩ := run_bind_ok h
  cases hset
  cases result with
  | error e => cases h
  | ok m =>
    cases h
    exact ⟨rfl, rfl⟩

theorem compileLoaded_ok {n : Nat} {css : String}
    (h : (compileLoaded minify n).run p = (.ok css, q)) :
    (p.session.compile n).1.bind (·.toCss minify p.session.library.options) = .ok css ∧
      q.disk = p.disk := by
  obtain ⟨s, t, hget, h⟩ := run_bind_ok h
  cases hget
  obtain ⟨_, t, hnote, h⟩ := run_bind_ok h
  cases hnote
  split at h
  · rename_i css' hcss
    cases h
    exact ⟨hcss, rfl⟩
  · cases h

theorem writeFile_ok {path contents : String} (h : (writeFile path contents).run p = (.ok u, q)) :
    p.disk.write path contents = some q.disk := by
  obtain ⟨s, t, hget, h⟩ := run_bind_ok h
  cases hget
  cases hwrite : p.disk.write path contents with
  | none =>
    rw [hwrite] at h
    cases h
  | some disk =>
    rw [hwrite] at h
    cases h
    rfl

theorem processFile_ok (ha : a.outDir = some directory)
    (h : (processFile minify a file).run p = (.ok u, q)) : ∃ css d, css? minify p file = some css ∧
      p.disk.write (destination directory file "css") css = some d ∧
      (q.disk = d ∨ ∃ text, d.write (destination directory file "json") text = some q.disk) := by
  obtain ⟨n, p₁, hload, h⟩ := run_bind_ok h
  obtain ⟨css, p₂, hcompile, h⟩ := run_bind_ok h
  obtain ⟨s, t, hget, h⟩ := run_bind_ok h
  cases hget
  obtain ⟨hrequest, hdisk₁⟩ := loadBlock_ok hload
  obtain ⟨hcss, hdisk₂⟩ := compileLoaded_ok hcompile
  rw [ha] at h
  obtain ⟨_, p₃, hwrite, h⟩ := run_bind_ok h
  have hwritten := writeFile_ok hwrite
  rw [hdisk₂, hdisk₁] at hwritten
  refine ⟨css, p₃.disk, ?_, hwritten, ?_⟩
  · rw [css?, Session.compilePath, hrequest]
    exact congrArg Except.toOption hcss
  cases hmapping : a.mapping with
  | false =>
    rw [hmapping] at h
    cases h
    exact .inl rfl
  | true =>
    rw [hmapping] at h
    exact .inr ⟨_, writeFile_ok h⟩

/-- **An input's stylesheet is in its file when the input is processed**, and the files of inputs
with other names are as they were. -/
theorem read_of_processFile (ha : a.outDir = some directory)
    (h : (processFile minify a file).run p = (.ok u, q)) :
    (∃ css, css? minify p file = some css ∧ q.disk.read (destination directory file "css") = .ok css) ∧
    ∀ other c, nameFromFile other ≠ nameFromFile file →
      p.disk.read (destination directory other "css") = .ok c →
      q.disk.read (destination directory other "css") = .ok c := by
  obtain ⟨css, d, hcss, hwrite, hmapping⟩ := processFile_ok ha h
  have hjson : ∀ other c, d.read (destination directory other "css") = .ok c →
      q.disk.read (destination directory other "css") = .ok c := by
    intro other c hread
    rcases hmapping with hdisk | ⟨text, hwrite⟩
    · rwa [hdisk]
    · refine read_of_write_destination (by decide) (by decide) (fun heq => ?_) hwrite hread
      have hlast := congrArg (fun s : String => s.toList.getLast?) heq
      simp at hlast
  refine ⟨⟨css, hcss, hjson file css (Disk.read_write hwrite)⟩, fun other c hne hread => ?_⟩
  refine hjson other c (read_of_write_destination (by decide) (by decide) (fun heq => hne ?_)
    hwrite hread)
  have hchars := congrArg String.toList heq
  simp only [String.toList_append] at hchars
  exact String.toList_injective (append_cancel_right (append_cancel_right hchars))

/-! ## All inputs -/

/-- The inputs from some point on with their compiled stylesheets. -/
def outputsFrom (minify : Minifier) (a : Arguments) :
    List String → Progress → List (String × Option String)
  | [], _ => []
  | file :: files, p =>
    (file, css? minify p file) :: outputsFrom minify a files ((processFile minify a file).run p).2

/-- The inputs with their compiled stylesheets, each as it is when the input is processed. -/
def outputs (minify : Minifier) (a : Arguments) (disk : Disk) : List (String × Option String) :=
  match options a disk with
  | .error _ => []
  | .ok o =>
    outputsFrom minify a a.files ((makeOutDir a).run { disk := disk, session := .new o disk.source }).2

theorem map_fst_outputsFrom (files : List String) (p : Progress) :
    (outputsFrom minify a files p).map Prod.fst = files := by
  induction files generalizing p with
  | nil => rfl
  | cons file files ih => rw [outputsFrom, map_cons, ih]

theorem read_of_forM_ne {files : List String} {u : PUnit} (ha : a.outDir = some directory)
    (h : (files.forM (processFile minify a)).run p = (.ok u, q)) {c : String}
    (hne : ∀ file ∈ files, nameFromFile other ≠ nameFromFile file)
    (hread : p.disk.read (destination directory other "css") = .ok c) :
    q.disk.read (destination directory other "css") = .ok c :=
  forM_ok (fun _ s => s.disk.read (destination directory other "css") = .ok c)
    (fun done file rest s s' hfiles hs hstep =>
      (read_of_processFile ha hstep).2 other c (hne file (by simp [hfiles])) hs) h hread

/-- **An output file has the stylesheet of some input with its name**: the last one. -/
theorem exists_read_of_forM {files : List String} {u : PUnit} (ha : a.outDir = some directory)
    (h : (files.forM (processFile minify a)).run p = (.ok u, q)) {o : String × Option String}
    (ho : o ∈ outputsFrom minify a files p) :
    ∃ o' ∈ outputsFrom minify a files p, nameFromFile o.1 = nameFromFile o'.1 ∧
      ∃ css, o'.2 = some css ∧ q.disk.read (destination directory o.1 "css") = .ok css := by
  induction files generalizing p o with
  | nil => cases ho
  | cons file files ih =>
    obtain ⟨v, t, hfile, hfiles⟩ := run_bind_ok h
    rw [outputsFrom, hfile] at ho ⊢
    -- an input behind this one that writes the same file
    by_cases hlater : ∃ o' ∈ outputsFrom minify a files t, nameFromFile o.1 = nameFromFile o'.1
    · obtain ⟨o', ho', hname⟩ := hlater
      obtain ⟨o'', ho'', hname', css, hcss, hread⟩ := ih hfiles ho'
      refine ⟨o'', mem_cons_of_mem _ ho'', hname.trans hname', css, hcss, ?_⟩
      unfold destination at hread ⊢
      rwa [hname]
    rcases mem_cons.1 ho with rfl | ho
    · obtain ⟨⟨css, hcss, hread⟩, -⟩ := read_of_processFile ha hfile
      refine ⟨_, mem_cons_self, rfl, css, hcss, read_of_forM_ne ha hfiles ?_ hread⟩
      intro f hf hname
      rw [← @map_fst_outputsFrom minify a files t] at hf
      obtain ⟨o', ho', rfl⟩ := mem_map.1 hf
      exact hlater ⟨o', ho', hname⟩
    · exact absurd ⟨o, ho, rfl⟩ hlater

/-- Every input has a compiled stylesheet, and it is in the file for the input when the run has
ended. -/
def KeepsOutputs (minify : Minifier) (a : Arguments) (disk : Disk) (directory : String) : Prop :=
  ∀ o ∈ outputs minify a disk, ∃ css, o.2 = some css ∧
    (run minify a disk).disk.read (destination directory o.1 "css") = .ok css

theorem run_ok {disk : Disk} (h : (run minify a disk).error = none) :
    ∃ p q, outputs minify a disk = outputsFrom minify a a.files p ∧
      (a.files.forM (processFile minify a)).run p = (.ok ⟨⟩, q) ∧ (run minify a disk).disk = q.disk := by
  unfold run at h ⊢
  unfold outputs
  cases ho : options a disk with
  | error e =>
    rw [ho] at h
    cases h
  | ok o =>
    rw [ho] at h
    dsimp only at h ⊢
    rcases hall : (processAll minify a).run { disk := disk, session := .new o disk.source }
      with ⟨result, q⟩
    rw [hall] at h
    cases result with
    | error e => cases h
    | ok u =>
      obtain ⟨v, p, hdir, hfiles⟩ := run_bind_ok hall
      exact ⟨p, q, by rw [hdir], hfiles, rfl⟩

/-- **Every input's stylesheet is in its file at the end** if and only if inputs whose files have the
same name up to the first point have the same stylesheet, with any minifier. -/
theorem keepsOutputs_iff {disk : Disk} (ha : a.outDir = some directory)
    (hrun : (run minify a disk).error = none) :
    (outputs minify a disk).map Prod.fst = a.files ∧
    (KeepsOutputs minify a disk directory ↔ ∀ o ∈ outputs minify a disk, ∀ o' ∈ outputs minify a disk,
      nameFromFile o.1 = nameFromFile o'.1 → o.2 = o'.2) := by
  obtain ⟨p, q, houtputs, hfiles, hdisk⟩ := run_ok hrun
  unfold KeepsOutputs
  rw [houtputs, hdisk]
  refine ⟨map_fst_outputsFrom a.files p, ?_, ?_⟩
  · intro hkeeps o ho o' ho' hname
    obtain ⟨css, hcss, hread⟩ := hkeeps o ho
    obtain ⟨css', hcss', hread'⟩ := hkeeps o' ho'
    have hsame : destination directory o.1 "css" = destination directory o'.1 "css" := by
      unfold destination
      rw [hname]
    rw [hsame, hread'] at hread
    rw [hcss, hcss', Except.ok.inj hread]
  · intro hsame o ho
    obtain ⟨o', ho', hname, css, hcss, hread⟩ := exists_read_of_forM ha hfiles ho
    exact ⟨css, (hsame o ho o' ho' hname).trans hcss, hread⟩

/-- Two files in different directories, each with one class. -/
def twoFiles (first second : String) : Disk :=
  (({} : Disk).add first (".x \x7b color: red " ++ "\x7d")).add second
    (".y \x7b color: blue " ++ "\x7d")

def withoutBlanks : Minifier := fun text =>
  .ok (String.ofList (text.toList.filter (· ∉ [' ', '\n'])))

theorem keepsOutputs_iff_differentNames :
    KeepsOutputs withoutBlanks
      { files := ["a/nav.css", "b/menu.css"], outDir := some "out", mapping := true, minify := true }
      (twoFiles "a/nav.css" "b/menu.css") "out" := by
  refine (keepsOutputs_iff rfl (by decide +kernel)).2.2 ?_
  decide +kernel

/-- Of two inputs with the same name in different directories, the stylesheet of the first one is
in no file at the end, and the program reports no error. -/
theorem sameNames_not_keepsOutputs :
    (run withoutBlanks { files := ["a/nav.css", "b/nav.css"], outDir := some "out" }
      (twoFiles "a/nav.css" "b/nav.css")).error = none ∧
    ¬ KeepsOutputs withoutBlanks { files := ["a/nav.css", "b/nav.css"], outDir := some "out" }
      (twoFiles "a/nav.css" "b/nav.css") "out" := by
  refine ⟨by decide +kernel, fun hkeeps => ?_⟩
  obtain ⟨css, hcss, hread⟩ := hkeeps
    ("a/nav.css", some (".nav__x \x7b\n    color: red;\n" ++ "\x7d\n")) (by decide +kernel)
  cases hcss
  revert hread
  decide +kernel

end CommandLine

end StyleBlocks
