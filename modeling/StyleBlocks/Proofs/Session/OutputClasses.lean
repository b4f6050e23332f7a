import StyleBlocks.Proofs.Catalog.Classes
import StyleBlocks.Proofs.Compilation.References

/-!
# Which objects share an output class

The output class of an object is written without escapes: the block's name, a class behind two
underscores, a state behind two hyphens, and one hyphen between a group and its value.  Names may
have these marks in them, so that one text can be read in several ways.

Main result: `Session.Reachable.className_eq_iff`.
-/

namespace StyleBlocks

variable {loading : List String} {w : Workspace} {x : ObjectId} (block : Option String)
  (state : Option StateName)

/-- Where two texts are one, each cut in two, the cuts are in one place or something is between
them. -/
theorem append_eq_append_cases {a b c d : String} (h : a ++ c = b ++ d) :
    a = b ∧ c = d ∨ (∃ t, t ≠ "" ∧ b = a ++ t ∧ c = t ++ d) ∨
      ∃ t, t ≠ "" ∧ a = b ++ t ∧ d = t ++ c := by
  have hl := congrArg String.toList h
  rw [String.toList_append, String.toList_append] at hl
  have hpart : ∀ {a b c d : String} {l : List Char}, b.toList = a.toList ++ l →
      c.toList = l ++ d.toList → a = b ∧ c = d ∨ ∃ t, t ≠ "" ∧ b = a ++ t ∧ c = t ++ d := by
    intro a b c d l hb hc
    by_cases hnil : l = []
    · subst hnil
      exact .inl ⟨String.toList_inj.1 (by simpa using hb.symm), String.toList_inj.1 (by simpa using hc)⟩
    · exact .inr ⟨String.ofList l, fun ht => hnil (by simpa using congrArg String.toList ht),
        String.toList_inj.1 (by simpa using hb), String.toList_inj.1 (by simpa using hc)⟩
  rcases List.append_eq_append_iff.1 hl with ⟨l, hb, hc⟩ | ⟨l, ha, hd⟩
  · exact (hpart hb hc).imp_right .inl
  · exact (hpart ha hd).imp (fun h => ⟨h.1.symm, h.2.symm⟩) .inr

namespace ObjectPath

/-- The output class of an object with the path, whose block is the named one. -/
def outputClass (p : ObjectPath) : String :=
  p.block.getD "" ++ p.classSuffix

def stateText (state : Option StateName) : String :=
  classSuffix ⟨none, none, state⟩

/-- The names of the second path hold a part of what stands behind them in the first. -/
inductive Overlaps : ObjectPath → ObjectPath → Prop
  | value (block className : Option String) (group name : String) :
      Overlaps ⟨block, className, some ⟨none, group ++ "-" ++ name⟩⟩
        ⟨block, className, some ⟨some group, name⟩⟩
  | group (block className : Option String) (group more name : String) :
      Overlaps ⟨block, className, some ⟨some group, more ++ "-" ++ name⟩⟩
        ⟨block, className, some ⟨some (group ++ "-" ++ more), name⟩⟩
  | className (block : Option String) {name more : String} {state state' : Option StateName}
      (hmore : more ≠ "") (h : stateText state = more ++ stateText state') :
      Overlaps ⟨block, some name, state⟩ ⟨block, some (name ++ more), state'⟩
  | block {name more : String} {p q : ObjectPath} (hmore : more ≠ "")
      (h : p.classSuffix = more ++ q.classSuffix) :
      Overlaps { p with block := some name } { q with block := some (name ++ more) }

variable {p q : ObjectPath}

theorem classSuffix_none : classSuffix ⟨block, none, state⟩ = stateText state := by
  rfl

theorem classSuffix_some (name : String) (state : Option StateName) :
    classSuffix ⟨block, some name, state⟩ = "__" ++ (name ++ stateText state) := by
  simp [stateText, classSuffix, String.append_assoc]

theorem stateText_alone (name : String) : stateText (some ⟨none, name⟩) = "--" ++ name := by
  simp [stateText, classSuffix, stateSuffix]

theorem stateText_group (group name : String) :
    stateText (some ⟨some group, name⟩) = "--" ++ (group ++ ("-" ++ name)) := by
  simp [stateText, classSuffix, stateSuffix, String.append_assoc]

theorem toList_stateText :
    stateText state = "" ∧ state = none ∨ ∃ t, (stateText state).toList = '-' :: '-' :: t := by
  match state with
  | none => exact .inl ⟨rfl, rfl⟩
  | some ⟨none, name⟩ => exact .inr ⟨name.toList, by simp [stateText_alone]⟩
  | some ⟨some group, name⟩ =>
    exact .inr ⟨group.toList ++ '-' :: name.toList, by simp [stateText_group]⟩

theorem Overlaps.outputClass_eq (h : p.Overlaps q) : p.outputClass = q.outputClass := by
  cases h with
  | value block className group name =>
    cases className <;>
      simp [outputClass, classSuffix_none, classSuffix_some, stateText_alone, stateText_group,
        String.append_assoc]
  | group block className group more name =>
    cases className <;>
      simp [outputClass, classSuffix_none, classSuffix_some, stateText_group, String.append_assoc]
  | className block hmore h =>
    simp [outputClass, classSuffix_some, h, String.append_assoc]
  | @block name more p q hmore h =>
    show name ++ p.classSuffix = (name ++ more) ++ q.classSuffix
    rw [h, String.append_assoc]

theorem stateText_eq (className : Option String) {state state' : Option StateName}
    (h : stateText state = stateText state') :
    (⟨block, className, state⟩ : ObjectPath) = ⟨block, className, state'⟩ ∨
      Overlaps ⟨block, className, state⟩ ⟨block, className, state'⟩ ∨
      Overlaps ⟨block, className, state'⟩ ⟨block, className, state⟩ := by
  -- a group and its value, where the text has a hyphen too many
  have hgroup : ∀ {group group' name name' : String} {t : String}, t ≠ "" → group' = group ++ t →
      "-" ++ name = t ++ ("-" ++ name') →
      Overlaps ⟨block, className, some ⟨some group, name⟩⟩
        ⟨block, className, some ⟨some group', name'⟩⟩ := by
    rintro group group' name name' t ht rfl h
    rcases append_eq_append_cases h with ⟨rfl, hname⟩ | ⟨u, -, rfl, hname⟩ | ⟨u, hu, hhyphen, -⟩
    · have := Overlaps.group block className group "" name'
      simpa [hname] using this
    · have := Overlaps.group block className group u name'
      simpa [hname, String.append_assoc] using this
    have hlength := congrArg String.length hhyphen
    have hone : "-".length = 1 := rfl
    have htpos : t.length ≠ 0 := by simpa using ht
    have hupos : u.length ≠ 0 := by simpa using hu
    rw [String.length_append] at hlength
    omega
  match state, state' with
  | none, none => exact .inl rfl
  | none, some state' =>
    rcases toList_stateText (some state') with ⟨-, hnone⟩ | ⟨t, ht⟩
    · cases hnone
    · rw [← h] at ht
      cases ht
  | some state, none =>
    rcases toList_stateText (some state) with ⟨-, hnone⟩ | ⟨t, ht⟩
    · cases hnone
    · rw [h] at ht
      cases ht
  | some ⟨none, name⟩, some ⟨none, name'⟩ =>
    rw [stateText_alone, stateText_alone] at h
    have hname : name = name' := by simpa using h
    exact .inl (by rw [hname])
  | some ⟨none, name⟩, some ⟨some group, name'⟩ =>
    rw [stateText_alone, stateText_group] at h
    have hname : name = group ++ "-" ++ name' := by simpa [String.append_assoc] using h
    rw [hname]
    exact .inr (.inl (.value block className group name'))
  | some ⟨some group, name⟩, some ⟨none, name'⟩ =>
    rw [stateText_alone, stateText_group] at h
    have hname : name' = group ++ "-" ++ name := by simpa [String.append_assoc] using h.symm
    rw [hname]
    exact .inr (.inr (.value block className group name))
  | some ⟨some group, name⟩, some ⟨some group', name'⟩ =>
    rw [stateText_group, stateText_group] at h
    have h : group ++ ("-" ++ name) = group' ++ ("-" ++ name') := by simpa using h
    rcases append_eq_append_cases h with ⟨rfl, hname⟩ | ⟨t, ht, hg, hname⟩ | ⟨t, ht, hg, hname⟩
    · have hname : name = name' := by simpa using hname
      exact .inl (by rw [hname])
    · exact .inr (.inl (hgroup ht hg hname))
    · exact .inr (.inr (hgroup ht hg hname))

theorem stateText_ne_underscores (t : String) : stateText state ≠ "__" ++ t := by
  intro h
  rcases toList_stateText state with ⟨hempty, -⟩ | ⟨u, hu⟩
  · rw [hempty] at h
    simpa using congrArg String.toList h
  · rw [h, String.toList_append] at hu
    cases hu

/-- **Paths with one output class are equal or overlap.** -/
theorem outputClass_eq_iff (hp : p.block.isSome = true) (hq : q.block.isSome = true) :
    p.outputClass = q.outputClass ↔ p = q ∨ p.Overlaps q ∨ q.Overlaps p := by
  constructor
  · obtain ⟨b, c, state⟩ := p
    obtain ⟨b', c', state'⟩ := q
    obtain ⟨b, rfl⟩ := Option.isSome_iff_exists.1 hp
    obtain ⟨b', rfl⟩ := Option.isSome_iff_exists.1 hq
    intro h
    rcases append_eq_append_cases h with ⟨hb, hsuffix⟩ | ⟨t, ht, hb, hsuffix⟩ | ⟨t, ht, hb, hsuffix⟩
    · obtain rfl : b = b' := hb
      match c, c' with
      | none, none =>
        exact stateText_eq _ _ hsuffix
      | none, some name =>
        rw [classSuffix_none, classSuffix_some] at hsuffix
        exact absurd hsuffix (stateText_ne_underscores _ _)
      | some name, none =>
        rw [classSuffix_none, classSuffix_some] at hsuffix
        exact absurd hsuffix.symm (stateText_ne_underscores _ _)
      | some name, some name' =>
        rw [classSuffix_some, classSuffix_some] at hsuffix
        have hsuffix : name ++ stateText state = name' ++ stateText state' := by
          simpa using hsuffix
        rcases append_eq_append_cases hsuffix with ⟨rfl, hstate⟩ | ⟨t, ht, rfl, hstate⟩ |
          ⟨t, ht, rfl, hstate⟩
        · exact stateText_eq _ _ hstate
        · exact .inr (.inl (.className _ ht hstate))
        · exact .inr (.inr (.className _ ht hstate))
    · obtain rfl : b' = b ++ t := hb
      exact .inr (.inl (.block ht hsuffix))
    · obtain rfl : b = b' ++ t := hb
      exact .inr (.inr (.block ht hsuffix))
  · rintro (rfl | h | h)
    · rfl
    · exact h.outputClass_eq
    · exact h.outputClass_eq.symm

/-! ## Names without marks -/

/-- The mark stands twice in a row in the name, if it follows the name once. -/
def runsInto (mark : Char) (name : String) : Prop :=
  [mark, mark] <:+: name.toList ++ [mark]

instance (mark : Char) (name : String) : Decidable (runsInto mark name) :=
  inferInstanceAs (Decidable (_ <:+: _))

theorem runsInto_append {mark : Char} {name more : String} {t rest : List Char} (hmore : more ≠ "")
    (h : mark :: mark :: t = more.toList ++ rest) : runsInto mark (name ++ more) := by
  unfold runsInto
  rw [String.toList_append]
  cases hl : more.toList with
  | nil => exact absurd (String.toList_inj.1 hl) hmore
  | cons c l =>
    rw [hl] at h
    obtain rfl := (List.cons.inj h).1
    cases l with
    | nil => exact ⟨name.toList, [], by simp⟩
    | cons d l =>
      obtain ⟨hd, -⟩ := List.cons.inj (List.cons.inj h).2
      exact ⟨name.toList, l ++ [mark], by simp [hd]⟩

/-- The names end where the marks begin: no hyphen runs on in the name of the class or of the block,
and no underscore in that of the block. -/
structure IsPlain (p : ObjectPath) : Prop where
  block : ∀ name ∈ p.block, ¬runsInto '-' name ∧ ¬runsInto '_' name
  className : ∀ name ∈ p.className, ¬runsInto '-' name

theorem Overlaps.eq_of_isPlain (h : p.Overlaps q) (hq : q.IsPlain) :
    p.block = q.block ∧ p.className = q.className := by
  cases h with
  | value | group => exact ⟨rfl, rfl⟩
  | @className block name more state state' hmore h =>
    rcases toList_stateText state with ⟨hempty, -⟩ | ⟨t, ht⟩
    · have hnil := congrArg String.toList h
      rw [hempty, String.toList_append] at hnil
      exact absurd (String.toList_inj.1 (List.append_eq_nil_iff.1 hnil.symm).1) hmore
    · rw [h, String.toList_append] at ht
      exact absurd (runsInto_append hmore ht.symm) (hq.className _ rfl)
  | @block name more p q hmore h =>
    rcases toList_classSuffix p with hnil | ⟨t, ht | ht⟩
    · rw [h, String.toList_append] at hnil
      exact absurd (String.toList_inj.1 (List.append_eq_nil_iff.1 hnil).1) hmore
    · rw [h, String.toList_append] at ht
      exact absurd (runsInto_append hmore ht.symm) (hq.block _ rfl).2
    · rw [h, String.toList_append] at ht
      exact absurd (runsInto_append hmore ht.symm) (hq.block _ rfl).1

end ObjectPath

/-! ## Objects of a session -/

namespace Catalog

/-- The path of an object, with the name of its block. -/
def fullPath (g : Catalog) (x : ObjectId) : ObjectPath :=
  { g.pathTo x with block := some (g.block x.block).name }

theorem toLocal_fullPath (g : Catalog) (x : ObjectId) : (g.fullPath x).toLocal = g.pathTo x := by
  have hblock : (g.pathTo x).block = none := Block.block_pathTo x.index
  rw [fullPath, ObjectPath.toLocal, ← hblock]

theorem className_eq_outputClass (g : Catalog) (x : ObjectId) :
    g.className x = (g.fullPath x).outputClass :=
  Block.className_eq _ _

end Catalog

theorem Workspace.Sound.fullPath_inj (h : w.Sound loading) {y : ObjectId} (hx : w.catalog.Holds x)
    (hy : w.catalog.Holds y) : w.catalog.fullPath x = w.catalog.fullPath y ↔ x = y := by
  constructor
  · intro hpath
    have hname : (w.catalog.block x.block).name = (w.catalog.block y.block).name :=
      Option.some.inj (congrArg ObjectPath.block hpath)
    have hblock : x.block = y.block := h.eq_of_name hx.isComplete hy.isComplete hname
    have hlocal : w.catalog.pathTo x = w.catalog.pathTo y := by
      rw [← w.catalog.toLocal_fullPath x, hpath, w.catalog.toLocal_fullPath]
    have hfind := h.find?_pathTo hx
    rw [hlocal, hblock, h.find?_pathTo hy] at hfind
    exact (Option.some.inj hfind).symm
  · rintro rfl
    rfl

theorem Workspace.Sound.className_ne (h : w.Sound loading) {y : ObjectId}
    (hx : (w.catalog.block x.block).IsComplete) (hy : (w.catalog.block y.block).IsComplete)
    (hblock : x.block ≠ y.block) (hpath : w.catalog.pathTo x = w.catalog.pathTo y) :
    w.catalog.className x ≠ w.catalog.className y := by
  intro heq
  rw [w.catalog.className_eq_outputClass, w.catalog.className_eq_outputClass] at heq
  have hname : (w.catalog.block x.block).name ++ (w.catalog.pathTo x).classSuffix
      = (w.catalog.block y.block).name ++ (w.catalog.pathTo y).classSuffix := heq
  rw [hpath] at hname
  exact hblock (h.eq_of_name hx hy (by simpa using hname))

theorem Block.NamesReadable.nulFree_className {b : Block} (h : b.NamesReadable)
    (hname : NulFree b.name) (index : Nat) : NulFree (b.className index) := by
  have hmark : NulFree "__" ∧ NulFree "--" ∧ NulFree "-" := by
    unfold NulFree
    decide
  have howner : ∀ i, NulFree (b.ownerClass i) := by
    intro i
    unfold ownerClass
    split
    · rename_i name hpath
      unfold ownerPath at hpath
      split at hpath
      · rename_i s hs
        split at hpath
        · cases hpath
          exact nulFree_append (nulFree_append hname hmark.1) (h s (List.mem_of_getElem? hs)).1
        · cases hpath
      · cases hpath
    · exact hname
  unfold className
  split
  · rename_i s hs
    obtain ⟨hobject, hgroup, -⟩ := h s (List.mem_of_getElem? hs)
    split
    · rename_i owner group isGlobal hkind
      refine nulFree_append (howner owner) ?_
      cases group with
      | none => exact nulFree_append hmark.2.1 hobject
      | some group =>
        have hg := hgroup group (by rw [StyleObject.group?, hkind])
        exact nulFree_append (nulFree_append (nulFree_append hmark.2.1 hg) hmark.2.2) hobject
    · exact howner index
  · exact hname

theorem Workspace.Sound.className_readable (h : w.Sound loading)
    (hx : (w.catalog.block x.block).IsComplete) :
    '\x00' ∉ (w.catalog.className x).toList ∧ (w.catalog.className x).toList ≠ [] := by
  obtain ⟨sheet, hsheet⟩ := Option.isSome_iff_exists.1 hx
  have hname := (h.soundAt x.block sheet hsheet).name
  obtain ⟨-, hchars⟩ := isIdentifier_iff.1 hname
  refine ⟨(h.namesReadable hx).nulFree_className (fun hmem => ?_) x.index, ?_⟩
  · exact ne_nul_of_isNameChar (hchars _ hmem) rfl
  · rw [Catalog.className, Block.className_eq, String.toList_append]
    simp [toList_ne_nil_of_isIdentifier hname]

/-- **When two objects share an output class.**  Two objects of loaded blocks have one class exactly
if they are one object or their paths overlap.  If no hyphens run on in the names of their blocks
and classes, and no underscores in those of their blocks, only states of one object do. -/
theorem Session.Reachable.className_eq_iff {s : Session} (hs : s.Reachable) {x y : ObjectId}
    (hx : s.catalog.Holds x) (hy : s.catalog.Holds y) :
    (s.catalog.className x = s.catalog.className y ↔
      x = y ∨ (s.catalog.fullPath x).Overlaps (s.catalog.fullPath y) ∨
        (s.catalog.fullPath y).Overlaps (s.catalog.fullPath x)) ∧
    ((s.catalog.fullPath x).IsPlain → (s.catalog.fullPath y).IsPlain →
      s.catalog.className x = s.catalog.className y →
        x.block = y.block ∧ (s.catalog.pathTo x).className = (s.catalog.pathTo y).className) := by
  have hiff : s.catalog.className x = s.catalog.className y ↔
      x = y ∨ (s.catalog.fullPath x).Overlaps (s.catalog.fullPath y) ∨
        (s.catalog.fullPath y).Overlaps (s.catalog.fullPath x) := by
    rw [s.catalog.className_eq_outputClass, s.catalog.className_eq_outputClass,
      ObjectPath.outputClass_eq_iff rfl rfl]
    exact or_congr_left (hs.sound.fullPath_inj hx hy)
  refine ⟨hiff, fun hpx hpy heq => ?_⟩
  have hname : ∀ {x y}, s.catalog.Holds x → s.catalog.Holds y →
      (s.catalog.fullPath x).block = (s.catalog.fullPath y).block → x.block = y.block :=
    fun hx hy h => hs.sound.eq_of_name hx.isComplete hy.isComplete (Option.some.inj h)
  rcases hiff.1 heq with rfl | h | h
  · exact ⟨rfl, rfl⟩
  · obtain ⟨hblock, hclass⟩ := h.eq_of_isPlain hpy
    exact ⟨hname hx hy hblock, hclass⟩
  · obtain ⟨hblock, hclass⟩ := h.eq_of_isPlain hpx
    exact ⟨(hname hy hx hblock).symm, hclass.symm⟩

/-- A block whose name reads like a class of another block. -/
def doubleNames : Session :=
  .ofFiles [("a.css", ".b \x7b color: red \x7d"),
    ("a__b.css", ":scope \x7b color: blue \x7d")] ["a.css", "a__b.css"]

theorem doubleNames_holds : doubleNames.catalog.Holds ⟨0, 1⟩ ∧ doubleNames.catalog.Holds ⟨1, 0⟩ := by
  have hcomplete : ((doubleNames.catalog.block 0).stylesheet.isSome &&
      (doubleNames.catalog.block 1).stylesheet.isSome) = true := by decide +kernel
  obtain ⟨h₀, h₁⟩ := Bool.and_eq_true_iff.1 hcomplete
  exact ⟨⟨h₀, by decide +kernel⟩, ⟨h₁, by decide +kernel⟩⟩

theorem className_eq_iff_doubleNames : doubleNames.catalog.Holds ⟨0, 1⟩ ∧
    doubleNames.catalog.Holds ⟨1, 0⟩ ∧
    (doubleNames.catalog.className ⟨0, 1⟩ = doubleNames.catalog.className ⟨1, 0⟩ ↔
      (⟨0, 1⟩ : ObjectId) = ⟨1, 0⟩ ∨
      (doubleNames.catalog.fullPath ⟨0, 1⟩).Overlaps (doubleNames.catalog.fullPath ⟨1, 0⟩) ∨
      (doubleNames.catalog.fullPath ⟨1, 0⟩).Overlaps (doubleNames.catalog.fullPath ⟨0, 1⟩)) :=
  ⟨doubleNames_holds.1, doubleNames_holds.2,
    (Session.Reachable.className_eq_iff (Session.reachable_ofFiles _ _) doubleNames_holds.1
      doubleNames_holds.2).1⟩

/-- A class of one block and the root of another one have one output class. -/
theorem doubleNames_className_eq : ∃ x y, doubleNames.catalog.Holds x ∧
    doubleNames.catalog.Holds y ∧ x ≠ y ∧
    doubleNames.catalog.className x = doubleNames.catalog.className y :=
  ⟨⟨0, 1⟩, ⟨1, 0⟩, doubleNames_holds.1, doubleNames_holds.2, by decide, by decide +kernel⟩

end StyleBlocks
