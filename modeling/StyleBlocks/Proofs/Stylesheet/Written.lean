import StyleBlocks.Proofs.Stylesheet.Fragments

/-!
# The characters of a printed stylesheet
-/

namespace StyleBlocks

open List Component

/-! ## The printed text -/

variable {nodes : List Node}

/-- The end of a line and the space before a node at the given depth. -/
def lineBreak (depth : Nat) : List Char :=
  '\n' :: List.replicate (4 * depth) ' '

mutual

/-- The text of a node, without the space before it and the end of its last line. -/
def written (depth : Nat) : Node → List Char
  | .rule head body => head.selector.toList ++ ' ' :: '\x7b' :: (writtenNodes (depth + 1) body
      ++ lineBreak depth ++ ['\x7d'])
  | .group head body => head.render.toList ++ ' ' :: '\x7b' :: (writtenNodes (depth + 1) body
      ++ lineBreak depth ++ ['\x7d'])
  | .statement head => head.render.toList ++ [';']
  | .declaration d => d.property.toList ++ ':' :: ' ' :: (d.writtenValue.toList ++ [';'])
  | .comment text _ => '/' :: '*' :: (text.toList ++ ['*', '/'])

def writtenNodes (depth : Nat) : List Node → List Char
  | [] => []
  | node :: nodes => lineBreak depth ++ (written depth node ++ writtenNodes depth nodes)

end

theorem toList_indentation (depth : Nat) :
    (indentation depth).toList = replicate (4 * depth) ' ' := by
  rw [indentation, String.toList_ofList]

theorem writtenNodes_append {depth : Nat}
    (h : '\n' :: (renderNodes depth nodes).toList = writtenNodes depth nodes ++ ['\n'])
    (rest : List Char) : '\n' :: ((renderNodes depth nodes).toList ++ rest)
      = writtenNodes depth nodes ++ '\n' :: rest := by
  rw [← cons_append, h]
  simp

mutual

theorem toList_renderNode : ∀ (node : Node) (depth : Nat),
    '\n' :: (renderNode depth node).toList = lineBreak depth ++ written depth node ++ ['\n']
  | .rule head body | .group head body => fun depth => by
    rw [renderNode, written, lineBreak]
    simp [toList_indentation, writtenNodes_append (toList_renderNodes body _)]
  | .statement head | .declaration d | .comment text location => fun depth => by
    rw [renderNode, written, lineBreak]
    simp [toList_indentation]

theorem toList_renderNodes : ∀ (nodes : List Node) (depth : Nat),
    '\n' :: (renderNodes depth nodes).toList = writtenNodes depth nodes ++ ['\n']
  | [] => fun depth => by
    rw [renderNodes, writtenNodes]
    rfl
  | node :: nodes => fun depth => by
    rw [renderNodes, writtenNodes, String.toList_append, ← cons_append, toList_renderNode node,
      append_assoc, singleton_append, toList_renderNodes nodes]
    simp

end

theorem toList_renderNode_zero (node : Node) :
    (renderNode 0 node).toList = written 0 node ++ ['\n'] := by
  have h := toList_renderNode node 0
  exact (cons.inj h).2

theorem Stylesheet.toList_render {sheet : Stylesheet} {node : Node}
    (h : sheet.nodes = node :: nodes) : sheet.render.toList = written 0 node
      ++ nodes.flatMap (fun node => '\n' :: '\n' :: written 0 node) ++ ['\n'] := by
  rw [Stylesheet.render, h]
  clear h
  induction nodes generalizing node with
  | nil =>
    rw [map_cons, map_nil, String.intercalate_singleton, toList_renderNode_zero]
    simp
  | cons next nodes ih =>
    rw [map_cons, map_cons, String.intercalate_cons_cons, ← map_cons,
      String.toList_append, ih, String.toList_append, toList_renderNode_zero]
    simp

/-! ## Texts that are read as nodes -/

def levelBracket (top : Bool) : Option Bracket :=
  if top then none else some .curly

/-- Whatever comes behind it, the text is read as the given nodes. -/
def IsReadAs (top : Bool) (w : List Char) (nodes : List Node) : Prop :=
  ∀ v, ∃ cs, Lexeme.cut (w ++ v) = Component.flatOf cs ++ Lexeme.cut v ∧
    Component.AllFit (levelBracket top) cs ∧ ∀ rest,
      parseNodes top .nowhere .nothing (cs ++ rest)
        = (parseNodes top .nowhere .nothing rest).map (nodes ++ ·)

namespace IsReadAs

variable {top : Bool} {w w' : List Char} {nodes' : List Node}

theorem nil : IsReadAs top [] [] := by
  intro v
  refine ⟨[], rfl, ?_, fun rest => ?_⟩
  · trivial
  · rw [nil_append]
    cases parseNodes top .nowhere .nothing rest <;> rfl

theorem append (h : IsReadAs top w nodes) (h' : IsReadAs top w' nodes') :
    IsReadAs top (w ++ w') (nodes ++ nodes') := by
  intro v
  obtain ⟨cs', hcut', hfits', hparse'⟩ := h' v
  obtain ⟨cs, hcut, hfits, hparse⟩ := h (w' ++ v)
  refine ⟨cs ++ cs', ?_, ?_, fun rest => ?_⟩
  · rw [append_assoc, hcut, hcut', flatOf_append, append_assoc]
  · exact allFit_append.2 ⟨hfits, hfits'⟩
  rw [append_assoc, hparse, hparse']
  cases parseNodes top .nowhere .nothing rest with
  | error e => rfl
  | ok nodes'' => exact congrArg Except.ok (append_assoc ..).symm

end IsReadAs

theorem parseNodes_spaceLeaf (top : Bool) (stop : Location) (spaces : List Char)
    (cs : List Component) :
    parseNodes top stop .nothing (spaceLeaf spaces :: cs) = parseNodes top stop .nothing cs := by
  rfl

theorem isSpace_of_mem_lineBreak {depth : Nat} {c : Char} (h : c ∈ lineBreak depth) :
    isSpace c = true := by
  rcases mem_cons.1 h with rfl | h
  · decide
  · rw [eq_of_mem_replicate h]
    decide

theorem IsReadAs.spaces {top : Bool} {w spaces : List Char} (h : IsReadAs top w nodes)
    (hne : spaces ≠ []) (hspaces : ∀ c ∈ spaces, isSpace c = true)
    (hw : ∃ c w', w = c :: w' ∧ isSpace c = false) : IsReadAs top (spaces ++ w) nodes := by
  intro v
  obtain ⟨cs, hcut, hfits, hparse⟩ := h v
  refine ⟨spaceLeaf spaces :: cs, ?_, ?_, fun rest => ?_⟩
  · obtain ⟨c, w', rfl, hc⟩ := hw
    have hhead : ∀ d, (c :: w' ++ v).head? = some d → isSpace d = false := by
      intro d hd
      cases hd
      exact hc
    rw [append_assoc, Lexeme.cut_spaces hne hspaces hhead, hcut]
    rfl
  · exact ⟨fits_spaceLeaf .., hfits⟩
  · rw [cons_append, parseNodes_spaceLeaf, hparse]

/-- Whatever comes behind it, the text is a block of curly brackets with the given nodes in it. -/
def IsBlockOf (w : List Char) (nodes : List Node) : Prop :=
  ∀ v, ∃ c, Lexeme.cut (w ++ v) = c.flat ++ Lexeme.cut v ∧ c.isCurly = true ∧
    (∀ outer, c.Fits outer) ∧ parseBlock c = .ok nodes

theorem IsReadAs.isBlockOf {w : List Char} (h : IsReadAs false w nodes) (depth : Nat) :
    IsBlockOf ('\x7b' :: (w ++ lineBreak depth ++ ['\x7d'])) nodes := by
  intro v
  obtain ⟨cs, hcut, hfits, hparse⟩ := h (lineBreak depth ++ '\x7d' :: v)
  have hclose : Lexeme.cut ('\x7d' :: v) = ⟨.closer .curly, ['\x7d'], .nowhere⟩ :: Lexeme.cut v :=
    Lexeme.cut_mark (fun _ => rfl) v
  have hspaces : Lexeme.cut (lineBreak depth ++ '\x7d' :: v) = _ :=
    Lexeme.cut_spaces (by simp [lineBreak]) (fun c hc => isSpace_of_mem_lineBreak hc)
      (by simp [isSpace, isNewline])
  refine ⟨.block ⟨.opener .curly, ['\x7b'], .nowhere⟩ .curly (cs ++ [spaceLeaf (lineBreak depth)])
    .nowhere ['\x7d'], ?_, rfl, fun outer => ?_, ?_⟩
  · have htext : '\x7b' :: (w ++ lineBreak depth ++ ['\x7d']) ++ v
        = '\x7b' :: (w ++ (lineBreak depth ++ '\x7d' :: v)) := by simp
    rw [htext, Lexeme.cut_mark (t := .opener .curly) (fun _ => rfl), hcut, hspaces, hclose,
      flat, flatOf_append, closing, if_neg (by simp)]
    simp [spaceLeaf, flatOf, flat]
  · rw [Fits, allFit_append, allFit_singleton]
    exact ⟨rfl, by simp, hfits, fits_spaceLeaf ..⟩
  · rw [parseBlock, hparse, parseNodes_spaceLeaf, parseNodes]
    exact congrArg Except.ok (append_nil nodes)

end StyleBlocks
