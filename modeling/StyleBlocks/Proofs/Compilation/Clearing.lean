import StyleBlocks.Proofs.Compilation.Stages
import StyleBlocks.Proofs.Session.Loading

/-!
# What stays when the block language is taken out

Whether a node goes can be told from the node and from where it stands, before anything is taken
out: an at-rule of the block language goes everywhere, a declaration of it only where it stands in a
style rule itself, and a rule if such a declaration stands in it and all else in it goes or is a
comment.

Main result: `clearNodes_exact`.
-/

namespace StyleBlocks

open Node List

variable (nodes : List Node)

/-! ## The nodes that go -/

mutual

/-- The node goes; `inRule` tells whether it stands in a style rule itself. -/
def Node.goes (inRule : Bool) : Node → Bool
  | .rule _ body => body.any Node.isBlockDeclaration && onlyCommentsStay body
  | .group head _ => languageAtRules.contains head.name
  | .statement head => languageAtRules.contains head.name
  | .declaration d => inRule && languageProperties.contains d.property
  | .comment .. => false

/-- The nodes in a rule go or are comments. -/
def onlyCommentsStay : List Node → Bool
  | [] => true
  | node :: nodes => (node.isComment || node.goes true) && onlyCommentsStay nodes

end

mutual

/-- A node that stays, without what goes in it. -/
def Node.trimmed : Node → Node
  | .rule head body => .rule head (staying true body)
  | .group head body => .group head (staying false body)
  | node => node

/-- The nodes that stay, in their order. -/
def staying (inRule : Bool) : List Node → List Node
  | [] => []
  | node :: nodes =>
    if node.goes inRule then staying inRule nodes else node.trimmed :: staying inRule nodes

end

theorem Node.isComment_trimmed (node : Node) : node.trimmed.isComment = node.isComment := by
  cases node <;> rfl

theorem Node.isBlockDeclaration_trimmed (node : Node) :
    node.trimmed.isBlockDeclaration = node.isBlockDeclaration := by
  cases node <;> rfl

theorem Node.goes_true (node : Node) :
    node.goes true = (node.goes false || node.isBlockDeclaration) := by
  cases node <;> simp [goes, isBlockDeclaration]

theorem onlyCommentsStay_eq : onlyCommentsStay nodes = (staying true nodes).all isComment := by
  induction nodes with
  | nil => rfl
  | cons node nodes ih =>
    rw [onlyCommentsStay, staying, ih]
    by_cases hgoes : node.goes true = true
    · simp [hgoes]
    · simp [hgoes, node.isComment_trimmed]

theorem filter_staying :
    (staying false nodes).filter (!·.isBlockDeclaration) = staying true nodes := by
  induction nodes with
  | nil => rfl
  | cons node nodes ih =>
    rw [staying, staying, node.goes_true]
    by_cases hgoes : node.goes false = true
    · simp [hgoes, ih]
    · by_cases hblock : node.isBlockDeclaration = true
      all_goals simp [hgoes, hblock, node.isBlockDeclaration_trimmed, ih]

theorem any_isBlockDeclaration_staying : (staying true nodes).any isBlockDeclaration = false := by
  rw [← filter_staying, any_eq_false]
  intro node hnode
  simpa using (mem_filter.1 hnode).2

/-! ## Taking the block language out -/

mutual

theorem clearNode_eq : (node : Node) →
    clearNode node = if node.goes false then [] else [node.trimmed]
  | .rule head body => by
    rw [clearNode, clearRule, clearNodes_eq body, filter_staying, goes, onlyCommentsStay_eq,
      trimmed]
  | .group head body => by rw [clearNode, clearNodes_eq body, goes, trimmed]
  | .statement _ | .declaration _ | .comment .. => rfl

/-- **Taking the block language out leaves what stays.** -/
theorem clearNodes_eq : (nodes : List Node) → clearNodes nodes = staying false nodes
  | [] => rfl
  | node :: nodes => by
    rw [clearNodes, clearNode_eq node, clearNodes_eq nodes, staying]
    split <;> rfl

end

theorem Node.goes_trimmed {inRule : Bool} {node : Node} (h : node.goes inRule = false) :
    node.trimmed.goes inRule = false := by
  cases node with
  | rule head body => rw [trimmed, goes, any_isBlockDeclaration_staying, Bool.false_and]
  | group head body | statement head | declaration d => exact h
  | comment text location => rfl

mutual

theorem Node.trimmed_trimmed : (node : Node) → node.trimmed.trimmed = node.trimmed
  | .rule head body => by rw [Node.trimmed, Node.trimmed, staying_staying true body]
  | .group head body => by rw [Node.trimmed, Node.trimmed, staying_staying false body]
  | .statement _ | .declaration _ | .comment .. => rfl

theorem staying_staying (inRule : Bool) : (nodes : List Node) →
    staying inRule (staying inRule nodes) = staying inRule nodes
  | [] => rfl
  | node :: nodes => by
    rw [staying]
    split
    · exact staying_staying inRule nodes
    rename_i hgoes
    rw [staying, Node.goes_trimmed (Bool.not_eq_true _ ▸ hgoes), Node.trimmed_trimmed node,
      staying_staying inRule nodes]
    rfl

end

/-! ## What is left of the block language -/

mutual

theorem name_notMem_of_mem_trimmed {inRule : Bool} : {node : Node} →
    node.goes inRule = false → ∀ head ∈ atRulesOfNode node.trimmed, head.name ∉ languageAtRules
  | .rule _ body, _ => name_notMem_of_mem_staying true body
  | .group head body, h => by
    rw [trimmed, atRulesOfNode, forall_mem_cons]
    exact ⟨by simpa [goes] using h, name_notMem_of_mem_staying false body⟩
  | .statement head, h => forall_mem_singleton.2 (by simpa [goes] using h)
  | .declaration _, _ | .comment .., _ => forall_mem_nil _

theorem name_notMem_of_mem_staying (inRule : Bool) : (nodes : List Node) →
    ∀ head ∈ atRulesOf (staying inRule nodes), head.name ∉ languageAtRules
  | [] => forall_mem_nil _
  | node :: nodes => by
    rw [staying]
    split
    · exact name_notMem_of_mem_staying inRule nodes
    rename_i hgoes
    rw [atRulesOf, forall_mem_append]
    exact ⟨name_notMem_of_mem_trimmed (Bool.not_eq_true _ ▸ hgoes),
      name_notMem_of_mem_staying inRule nodes⟩

end

mutual

def declarationsOfNode : Node → List Declaration
  | .rule _ body => declarationsOf body
  | .group _ body => declarationsOf body
  | .declaration d => [d]
  | _ => []

def declarationsOf : List Node → List Declaration
  | [] => []
  | node :: nodes => declarationsOfNode node ++ declarationsOf nodes

end

def languageDeclarations (nodes : List Node) : List Declaration :=
  (declarationsOf nodes).filter fun d => languageProperties.contains d.property

mutual

/-- The declarations of the block language in a node that do not stand in a style rule itself.
What stands in an at-rule of the block language does not count. -/
def looseOfNode (inRule : Bool) : Node → List Declaration
  | .rule _ body => looseOf true body
  | .group head body => if languageAtRules.contains head.name then [] else looseOf false body
  | .declaration d => if !inRule && languageProperties.contains d.property then [d] else []
  | _ => []

/-- The declarations of the block language in a list of nodes, at every depth, that do not stand in
a style rule itself. -/
def looseOf (inRule : Bool) : List Node → List Declaration
  | [] => []
  | node :: nodes => looseOfNode inRule node ++ looseOf inRule nodes

end

mutual

theorem looseOfNode_of_goes {inRule : Bool} : {node : Node} → node.goes inRule = true →
    looseOfNode inRule node = []
  | .rule _ body, h => by
    rw [goes, Bool.and_eq_true] at h
    rw [looseOfNode, looseOf_of_onlyCommentsStay h.2]
  | .group head body, h => by
    rw [goes] at h
    rw [looseOfNode, if_pos h]
  | .statement _, _ => rfl
  | .declaration d, h => by
    rw [goes, Bool.and_eq_true] at h
    simp [looseOfNode, h.1]
  | .comment .., _ => rfl

theorem looseOf_of_onlyCommentsStay : {nodes : List Node} → onlyCommentsStay nodes = true →
    looseOf true nodes = []
  | [], _ => rfl
  | node :: nodes, h => by
    rw [onlyCommentsStay, Bool.and_eq_true, Bool.or_eq_true] at h
    obtain ⟨hnode, hnodes⟩ := h
    rw [looseOf, looseOf_of_onlyCommentsStay hnodes, append_nil]
    rcases hnode with hcomment | hgoes
    · cases node with
      | comment text location => rfl
      | _ => cases hcomment
    · exact looseOfNode_of_goes hgoes

end

mutual

theorem languageDeclarations_trimmed {inRule : Bool} : {node : Node} →
    node.goes inRule = false → languageDeclarations [node.trimmed] = looseOfNode inRule node
  | .rule _ body, _ => by
    rw [looseOfNode, ← languageDeclarations_staying true body, trimmed]
    simp [languageDeclarations, declarationsOf, declarationsOfNode]
  | .group head body, h => by
    rw [goes] at h
    rw [looseOfNode, h, ← languageDeclarations_staying false body, trimmed]
    simp [languageDeclarations, declarationsOf, declarationsOfNode]
  | .statement _, _ => rfl
  | .declaration d, h => by
    rw [goes] at h
    cases inRule <;>
      simp_all [languageDeclarations, trimmed, declarationsOf, declarationsOfNode,
        looseOfNode, filter_cons]
  | .comment .., _ => rfl

theorem languageDeclarations_staying (inRule : Bool) : (nodes : List Node) →
    languageDeclarations (staying inRule nodes) = looseOf inRule nodes
  | [] => rfl
  | node :: nodes => by
    rw [staying, looseOf, ← languageDeclarations_staying inRule nodes]
    split
    · rename_i hgoes
      rw [looseOfNode_of_goes hgoes, nil_append]
    · rename_i hgoes
      rw [← languageDeclarations_trimmed (Bool.not_eq_true _ ▸ hgoes)]
      simp [languageDeclarations, declarationsOf]

end

/-- **What taking the block language out does.**  The nodes that go are left out and nothing else
is, no at-rule of the block language is left, its declarations are left exactly where they stand
outside the style rules, and doing it again changes nothing. -/
theorem clearNodes_exact (nodes : List Node) :
    clearNodes nodes = staying false nodes ∧
      (∀ head ∈ atRulesOf (clearNodes nodes), head.name ∉ languageAtRules) ∧
      languageDeclarations (clearNodes nodes) = looseOf false nodes ∧
      clearNodes (clearNodes nodes) = clearNodes nodes := by
  simp only [clearNodes_eq, true_and]
  exact ⟨name_notMem_of_mem_staying false nodes, languageDeclarations_staying false nodes,
    staying_staying false nodes⟩

/-- A block whose name is given in an at-rule, outside the style rules. -/
def looseName : Session :=
  .ofFiles [("main.css", "@media print \x7b block-name: nav; color: red \x7d")] ["main.css"]

theorem looseName_compile : (looseName.compile 0).1.toOption.any (fun out =>
    (looseName.catalog.block 0).stylesheet.any (fun sheet =>
      (languageDeclarations (clearNodes sheet.nodes)).map (·.property) == ["block-name"]) &&
    (languageDeclarations out.nodes).map (·.property) == ["block-name"]) = true := by
  decide +kernel

/-- The declaration is left by taking the block language out, and is in the compiled stylesheet. -/
theorem looseName_compile_keeps : ∃ sheet out,
    (looseName.catalog.block 0).stylesheet = some sheet ∧ (looseName.compile 0).1 = .ok out ∧
    languageDeclarations (clearNodes sheet.nodes) ≠ [] ∧ languageDeclarations out.nodes ≠ [] := by
  obtain ⟨-, out, -, hout, hkept⟩ := Session.exists_of_compile_any looseName_compile
  obtain ⟨hleft, hprinted⟩ := Bool.and_eq_true_iff.1 hkept
  obtain ⟨sheet, hsheet, hleft⟩ := (Option.any_eq_true _ _).1 hleft
  refine ⟨sheet, out, hsheet, hout, fun h => ?_, fun h => ?_⟩
  · rw [h] at hleft
    cases hleft
  · rw [h] at hprinted
    cases hprinted

end StyleBlocks
