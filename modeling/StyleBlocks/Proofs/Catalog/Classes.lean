import StyleBlocks.Proofs.Catalog.Chains

/-!
# Output classes
-/

namespace StyleBlocks

/-- What follows the block's name in the output class of an object with the path. -/
def ObjectPath.classSuffix (p : ObjectPath) : String :=
  (match p.className with
    | some name => "__" ++ name
    | none => "")
  ++ match p.state with
    | some state => stateSuffix state.group state.name
    | none => ""

namespace Block

theorem ownerClass_eq (b : Block) (index : Nat) :
    b.ownerClass index = b.name ++ (b.ownerPath index).classSuffix := by
  unfold ownerClass ObjectPath.classSuffix
  rw [state_ownerPath]
  cases (b.ownerPath index).className with
  | none => simp
  | some name => simp [String.append_assoc]

theorem className_eq (b : Block) (index : Nat) :
    b.className index = b.name ++ (b.pathTo index).classSuffix := by
  unfold className pathTo
  cases b.objects[index]? with
  | none => simp [ObjectPath.classSuffix, ObjectPath.root]
  | some s =>
    cases hk : s.kind with
    | state owner group isGlobal =>
      simp only [hk, ownerClass_eq, String.append_assoc, ObjectPath.classSuffix, state_ownerPath]
      simp
    | root | named => simp only [hk, ownerClass_eq]

end Block

/-- What follows the block's name begins with two hyphens or two underscores. -/
theorem ObjectPath.toList_classSuffix (p : ObjectPath) : p.classSuffix.toList = [] ∨
    ∃ t, p.classSuffix.toList = '_' :: '_' :: t ∨ p.classSuffix.toList = '-' :: '-' :: t := by
  unfold classSuffix
  have hstate : ∀ group name, ∃ t, (stateSuffix group name).toList = '-' :: '-' :: t := by
    intro group name
    cases group with
    | none => exact ⟨name.toList, by simp [stateSuffix]⟩
    | some group => exact ⟨group.toList ++ '-' :: name.toList, by simp [stateSuffix]⟩
  cases p.className with
  | some name =>
    refine .inr ⟨name.toList ++ (match p.state with
      | some state => stateSuffix state.group state.name
      | none => "").toList, .inl ?_⟩
    simp
  | none =>
    cases p.state with
    | none => exact .inl (by simp)
    | some state =>
      obtain ⟨t, ht⟩ := hstate state.group state.name
      exact .inr ⟨t, .inr (by simpa using ht)⟩

theorem Catalog.lineageFrom_prefix (g : Catalog) (fuel : Nat) (objects : List ObjectId)
    (next : Option ObjectId) : objects <+: g.lineageFrom fuel objects next := by
  fun_induction g.lineageFrom fuel objects next with
  | case1 | case2 | case3 => exact List.prefix_rfl
  | case4 fuel objects next h ih => exact (List.prefix_append _ _).trans ih

theorem Catalog.exists_classNames_eq (g : Catalog) (id : ObjectId) :
    ∃ others, g.classNames id = g.className id :: others := by
  obtain ⟨others, h⟩ := g.lineageFrom_prefix (g.blocks.length + 1) [id] (g.overridden? id)
  refine ⟨others.map g.className, ?_⟩
  rw [classNames, lineage, ← h]
  rfl

end StyleBlocks
