import StyleBlocks.Proofs.Nesting
import StyleBlocks.Proofs.Stylesheet.Places
import StyleBlocks.Proofs.Nesting
import StyleBlocks.Proofs.Token.Cut
import StyleBlocks.Stylesheet.Printer

/-!
# Stylesheets without locations

Where a text stands decides about the locations in what is read from it and about nothing else, and
printing looks neither at locations nor at the numbers of rules.
-/

namespace StyleBlocks

open Component List

variable {x y : Except LocatedFault (List Node)}

/-! ## Components -/

namespace Component

mutual

def unplaced : Component → Component
  | leaf l => leaf l.unplaced
  | block l b body _ close => block l.unplaced b (unplacedOf body) .nowhere close

def unplacedOf : List Component → List Component
  | [] => []
  | c :: cs => c.unplaced :: unplacedOf cs

end

theorem unplacedOf_eq_map (cs : List Component) : unplacedOf cs = cs.map unplaced := by
  induction cs with
  | nil => rfl
  | cons c cs ih => rw [unplacedOf, ih, map_cons]

theorem unplaced_leaf (l : Lexeme) : (leaf l).unplaced = leaf l.unplaced := by
  rw [unplaced]

theorem unplaced_block (l : Lexeme) (b : Bracket) (body : List Component) (stop : Location)
    (close : List Char) : (block l b body stop close).unplaced
      = block l.unplaced b (body.map unplaced) .nowhere close := by
  rw [unplaced, unplacedOf_eq_map]

theorem token_unplaced (c : Component) : c.unplaced.token = c.token := by
  cases c <;> rw [unplaced] <;> rfl

theorem location_unplaced (c : Component) : c.unplaced.location = .nowhere := by
  cases c <;> rw [unplaced] <;> rfl

theorem isCurly_unplaced (c : Component) : c.unplaced.isCurly = c.isCurly := by
  cases c with
  | leaf l => rw [unplaced]; rfl
  | block l b body stop close => rw [unplaced]; cases b <;> rfl

mutual

theorem text_unplaced : ∀ c : Component, c.unplaced.text = c.text
  | leaf l => by
    rw [unplaced, text, text]
    rfl
  | block l b body stop close => by
    rw [unplaced, text, text, textOf_unplacedOf body]
    rfl

theorem textOf_unplacedOf : ∀ cs : List Component, textOf (unplacedOf cs) = textOf cs
  | [] => rfl
  | c :: cs => by rw [unplacedOf, textOf, textOf, text_unplaced c, textOf_unplacedOf cs]

end

theorem textOf_map_unplaced (cs : List Component) : textOf (cs.map unplaced) = textOf cs := by
  rw [← unplacedOf_eq_map, textOf_unplacedOf]

end Component

def OpenBlock.unplaced (b : OpenBlock) : OpenBlock :=
  ⟨b.opener.unplaced, b.bracket, b.before.map Component.unplaced⟩

namespace Nesting

def unplaced (n : Nesting) : Nesting :=
  ⟨n.opened.map OpenBlock.unplaced, n.level.map Component.unplaced⟩

theorem unplaced_step (n : Nesting) (l : Lexeme) :
    (n.step l).unplaced = n.unplaced.step l.unplaced := by
  obtain ⟨opened, level⟩ := n
  obtain ⟨b, hopens⟩ | ⟨b, outer, rfl, htoken⟩ | ⟨hopens, hleaf⟩ := opens_or_closes opened l
  · have hopens' : l.unplaced.token.opens = some b := hopens
    rw [step_open hopens, step_open hopens']
    rfl
  · have htoken' : l.unplaced.token = .closer b.unplaced.bracket := htoken
    rw [step_close htoken, unplaced, unplaced, map_cons, step_close htoken', close, close,
      map_cons, unplaced_block, map_reverse]
    rfl
  · have hopens' : l.unplaced.token.opens = none := hopens
    have hbrackets : (opened.map OpenBlock.unplaced).head?.map OpenBlock.bracket
        = opened.head?.map OpenBlock.bracket := by
      cases opened <;> rfl
    rw [step_leaf hopens hleaf, unplaced, unplaced, step_leaf hopens' (by rwa [hbrackets]),
      map_cons, unplaced_leaf]

theorem map_unplaced_finish (stop : Location) (opened : List OpenBlock) (level : List Component) :
    (finish stop opened level).map Component.unplaced
      = finish .nowhere (opened.map OpenBlock.unplaced) (level.map Component.unplaced) := by
  induction opened generalizing level with
  | nil => rw [finish, map_reverse, map_nil, finish]
  | cons b outer ih =>
    rw [finish, ih, map_cons, map_cons, finish, unplaced_block, map_reverse]
    rfl

end Nesting

namespace Component

/-- **Grouping does not look at locations.** -/
theorem map_unplaced_group (stop : Location) (ls : List Lexeme) :
    (group stop ls).map unplaced = group .nowhere (ls.map Lexeme.unplaced) := by
  have hfold : ∀ (ls : List Lexeme) (n : Nesting), (ls.foldl Nesting.step n).unplaced
      = (ls.map Lexeme.unplaced).foldl Nesting.step n.unplaced := by
    intro ls
    induction ls with
    | nil => exact fun n => rfl
    | cons l ls ih =>
      intro n
      rw [foldl_cons, ih, Nesting.unplaced_step, map_cons, foldl_cons]
  rw [group, group, Nesting.map_unplaced_finish]
  have hempty := hfold ls .empty
  have hstart : Nesting.empty.unplaced = .empty := rfl
  rw [hstart] at hempty
  rw [← hempty]
  rfl

end Component

/-! ## Nodes -/

mutual

def Node.bare : Node → Node
  | .rule head body => .rule ⟨0, head.selector, .nowhere⟩ (bareNodes body)
  | .group head body => .group ⟨head.name, head.params, .nowhere⟩ (bareNodes body)
  | .statement head => .statement ⟨head.name, head.params, .nowhere⟩
  | .declaration d => .declaration ⟨d.property, d.value, d.important, .nowhere⟩
  | .comment text _ => .comment text .nowhere

/-- The nodes without their locations and the numbers of their rules. -/
def bareNodes : List Node → List Node
  | [] => []
  | node :: nodes => node.bare :: bareNodes nodes

end

theorem bareNodes_bareNodes (nodes : List Node) : bareNodes (bareNodes nodes) = bareNodes nodes := by
  induction nodes using nodes_induct with
  | nil => rfl
  | rule _ _ _ ihbody ih | group _ _ _ ihbody ih => simp only [bareNodes, Node.bare, ihbody, ih]
  | statement _ _ ih | declaration _ _ ih | comment _ _ _ ih => simp only [bareNodes, Node.bare, ih]

theorem bareNodes_numberNodes (nodes : List Node) (n : Nat) :
    bareNodes (numberNodes n nodes).1 = bareNodes nodes := by
  induction nodes using nodes_induct generalizing n with
  | nil => rfl
  | rule _ _ _ ihbody ih | group _ _ _ ihbody ih =>
    simp only [numberNodes, numberNode, bareNodes, Node.bare, ihbody, ih]
  | statement _ _ ih | declaration _ _ ih | comment _ _ _ ih =>
    simp only [numberNodes, numberNode, bareNodes, ih]

theorem renderNodes_bareNodes (nodes : List Node) (depth : Nat) :
    renderNodes depth (bareNodes nodes) = renderNodes depth nodes := by
  induction nodes using nodes_induct generalizing depth with
  | nil => rfl
  | rule _ _ _ ihbody ih | group _ _ _ ihbody ih =>
    simp only [bareNodes, Node.bare, renderNodes, renderNode, AtHead.render, ihbody, ih]
  | statement _ _ ih | declaration _ _ ih | comment _ _ _ ih =>
    rw [bareNodes, renderNodes, ih]
    rfl

/-! ## One component more -/

theorem Component.isComment_iff {c : Component} :
    c.isComment = true ↔ ∃ text, c.token = .comment text := by
  rw [isComment]
  cases c.token <;> simp [Token.isComment]

section

variable {top : Bool} {stop location : Location} {c : Component} {cs seen : List Component}
  {name text : String}

attribute [local simp] parseNodes

theorem parseNodes_comment (h : c.token = .comment text) :
    parseNodes top stop .nothing (c :: cs)
      = (parseNodes top stop .nothing cs).map (.comment text c.location :: ·) := by
  rw [parseNodes, h]
  cases parseNodes top stop .nothing cs <;> rfl

theorem parseNodes_nothing_curly (hc : c.isCurly = true) (h : c.isComment = false) :
    ∃ e, parseNodes top stop .nothing (c :: cs) = .error e := by
  rw [parseNodes]
  split
  · rename_i heq
    rw [isComment, heq] at h
    cases h
  · rw [if_pos hc]
    exact ⟨_, rfl⟩

theorem parseNodes_start (h : c.isComment = false) (hc : c.isCurly = false) :
    parseNodes top stop .nothing (c :: cs) = parseNodes top stop (.start top c cs) cs := by
  rw [parseNodes]
  split
  · rename_i heq
    rw [isComment, heq] at h
    cases h
  · rw [hc, if_neg Bool.false_ne_true]

/-- The component goes on with the statement that has begun. -/
def Pending.takes (c : Component) : Pending → Bool
  | nothing => false
  | rule .. => !c.isCurly
  | atRule .. => !c.isCurly && !c.isSemicolon
  | declaration _ => !c.isSemicolon

def Pending.push (cs : List Component) : Pending → Pending
  | nothing => nothing
  | rule location seen => rule location (cs.reverse ++ seen)
  | atRule name location seen => atRule name location (cs.reverse ++ seen)
  | declaration seen => declaration (cs.reverse ++ seen)

theorem parseNodes_push {pending : Pending} (h : pending.takes c = true) :
    parseNodes top stop pending (c :: cs) = parseNodes top stop (pending.push [c]) cs := by
  cases pending <;> simp_all [Pending.takes, Pending.push]

theorem parseNodes_rule_empty (hc : c.isCurly = true) (h : (preludeText seen).isEmpty = true) :
    ∃ e, parseNodes top stop (.rule location seen) (c :: cs) = .error e := by
  simp [hc, h]

theorem parseNodes_rule_body (hc : c.isCurly = true) (h : (preludeText seen).isEmpty = false) :
    parseNodes top stop (.rule location seen) (c :: cs) = (parseBlock c).bind fun body =>
      (parseNodes top stop .nothing cs).map (.rule ⟨0, preludeText seen, location⟩ body :: ·) := by
  rw [parseNodes, hc, if_pos rfl, h, if_neg Bool.false_ne_true]
  cases parseBlock c with
  | error e => rfl
  | ok body => cases parseNodes top stop .nothing cs <;> rfl

theorem parseNodes_atRule_body (hc : c.isCurly = true) :
    parseNodes top stop (.atRule name location seen) (c :: cs) = (parseBlock c).bind fun body =>
      (parseNodes top stop .nothing cs).map
        (.group ⟨name, preludeText seen, location⟩ body :: ·) := by
  rw [parseNodes, hc, if_pos rfl]
  cases parseBlock c with
  | error e => rfl
  | ok body => cases parseNodes top stop .nothing cs <;> rfl

theorem parseNodes_atRule_end (hc : c.isCurly = false) (h : c.isSemicolon = true) :
    parseNodes top stop (.atRule name location seen) (c :: cs)
      = (parseNodes top stop .nothing cs).map
        (.statement ⟨name, preludeText seen, location⟩ :: ·) := by
  rw [parseNodes, hc, if_neg Bool.false_ne_true, h, if_pos rfl]
  cases parseNodes top stop .nothing cs <;> rfl

theorem parseNodes_declaration_end (h : c.isSemicolon = true) :
    parseNodes top stop (.declaration seen) (c :: cs)
      = (readDeclaration stop (c :: seen).reverse).bind fun d =>
        (parseNodes top stop .nothing cs).map (.declaration d :: ·) := by
  rw [parseNodes, h, if_pos rfl]
  cases readDeclaration stop (c :: seen).reverse with
  | error e => rfl
  | ok d => cases parseNodes top stop .nothing cs <;> rfl

end

/-! ## Reading without locations -/

theorem map_unplaced_dropWhile (p : Component → Bool) (hp : ∀ c : Component, p c.unplaced = p c)
    (cs : List Component) :
    (cs.map unplaced).dropWhile p = (cs.dropWhile p).map unplaced ∧
      (cs.map unplaced).takeWhile p = (cs.takeWhile p).map unplaced := by
  induction cs with
  | nil => exact ⟨rfl, rfl⟩
  | cons c cs ih =>
    rw [map_cons, dropWhile_cons, dropWhile_cons, takeWhile_cons, takeWhile_cons, hp]
    split
    · exact ⟨ih.1, by rw [ih.2, map_cons]⟩
    · exact ⟨rfl, rfl⟩

theorem isFiller_unplaced (c : Component) : c.unplaced.isFiller = c.isFiller := by
  rw [isFiller, c.token_unplaced, isFiller]

theorem isSemicolon_unplaced (c : Component) : c.unplaced.isSemicolon = c.isSemicolon := by
  rw [isSemicolon, c.token_unplaced, isSemicolon]

theorem spanText_unplaced (seen : List Component) :
    spanText (seen.map unplaced) = spanText seen := by
  rw [spanText, spanText, ← map_reverse, textOf_map_unplaced]

theorem preludeText_unplaced (seen : List Component) :
    preludeText (seen.map unplaced) = preludeText seen := by
  rw [preludeText, (map_unplaced_dropWhile _ isFiller_unplaced seen).1, spanText_unplaced,
    preludeText]

theorem valueOf_unplaced (cs : List Component) : valueOf (cs.map unplaced) = valueOf cs := by
  rw [valueOf, textOf_map_unplaced, valueOf]

theorem startsRule_unplaced (cs : List Component) :
    startsRule (cs.map unplaced) = startsRule cs := by
  induction cs with
  | nil => rfl
  | cons c cs ih =>
    rw [map_cons, startsRule, startsRule, c.isCurly_unplaced, isSemicolon_unplaced, ih]

def Declaration.bare (d : Declaration) : Declaration :=
  ⟨d.property, d.value, d.important, .nowhere⟩

theorem readDeclaration_eq_ok_iff {stop : Location} {cs : List Component} {d : Declaration} :
    readDeclaration stop cs = .ok d ↔ ∃ first rest name colon rest', cs = first :: rest ∧
      first.token = .ident name ∧ rest.dropWhile isFiller = colon :: rest' ∧
        colon.token = .colon ∧ d = ⟨name, (valueOf (rest'.takeWhile (!·.isSemicolon))).1,
          (valueOf (rest'.takeWhile (!·.isSemicolon))).2, first.location⟩ := by
  constructor
  · intro h
    unfold readDeclaration at h
    split at h
    · cases h
    rename_i first rest
    split at h
    · rename_i name hname
      split at h
      · cases h
      rename_i colon rest' hrest
      split at h
      · rename_i hcolon
        cases h
        exact ⟨first, rest, name, colon, rest', rfl, hname, hrest, hcolon, rfl⟩
      · cases h
    · cases h
  · rintro ⟨first, rest, name, colon, rest', rfl, hname, hrest, hcolon, rfl⟩
    rw [readDeclaration, hname]
    rw [hrest]
    dsimp only
    rw [if_pos hcolon]

theorem readDeclaration_unplaced (stop : Location) (cs : List Component) :
    (readDeclaration stop cs).toOption.map Declaration.bare
      = (readDeclaration .nowhere (cs.map unplaced)).toOption := by
  have hfiller := fun rest => (map_unplaced_dropWhile _ isFiller_unplaced rest).1
  have hvalue := fun rest => (map_unplaced_dropWhile (!·.isSemicolon)
    (fun c => by rw [isSemicolon_unplaced]) rest).2
  cases h : readDeclaration stop cs with
  | ok d =>
    obtain ⟨first, rest, name, colon, rest', rfl, hname, hrest, hcolon, rfl⟩ :=
      readDeclaration_eq_ok_iff.1 h
    have hread : readDeclaration .nowhere ((first :: rest).map unplaced)
        = .ok ⟨name, (valueOf (rest'.takeWhile (!·.isSemicolon))).1,
          (valueOf (rest'.takeWhile (!·.isSemicolon))).2, .nowhere⟩ := by
      rw [readDeclaration_eq_ok_iff]
      refine ⟨first.unplaced, rest.map unplaced, name, colon.unplaced,
        rest'.map unplaced, rfl, ?_, ?_, ?_, ?_⟩
      · rw [first.token_unplaced, hname]
      · rw [hfiller, hrest, map_cons]
      · rw [colon.token_unplaced, hcolon]
      · rw [hvalue, valueOf_unplaced, first.location_unplaced]
    rw [hread]
    rfl
  | error e =>
    cases h' : readDeclaration .nowhere (cs.map unplaced) with
    | error e' => rfl
    | ok d =>
      exfalso
      obtain ⟨first', rest₀, name, colon', rest₁, hcs, hname, hrest, hcolon, -⟩ :=
        readDeclaration_eq_ok_iff.1 h'
      obtain ⟨first, rest, rfl, rfl, rfl⟩ := map_eq_cons_iff.1 hcs
      rw [hfiller] at hrest
      obtain ⟨colon, rest', hrest', rfl, rfl⟩ := map_eq_cons_iff.1 hrest
      rw [token_unplaced] at hname hcolon
      have hread : readDeclaration stop (first :: rest) = .ok _ := readDeclaration_eq_ok_iff.2
        ⟨first, rest, name, colon, rest', rfl, hname, hrest', hcolon, rfl⟩
      rw [h] at hread
      cases hread

def Pending.unplaced : Pending → Pending
  | nothing => nothing
  | rule _ seen => rule .nowhere (seen.map Component.unplaced)
  | atRule name _ seen => atRule name .nowhere (seen.map Component.unplaced)
  | declaration seen => declaration (seen.map Component.unplaced)

theorem Pending.unplaced_start (top : Bool) (c : Component) (cs : List Component) :
    (Pending.start top c cs).unplaced
      = Pending.start top c.unplaced (cs.map Component.unplaced) := by
  have hrule : startsRule (c.unplaced :: cs.map Component.unplaced) = startsRule (c :: cs) :=
    startsRule_unplaced (c :: cs)
  have hbegun : (if top || startsRule (c :: cs) then rule c.location [c]
      else declaration [c]).unplaced
        = if top || startsRule (c :: cs) then rule .nowhere [c.unplaced]
          else declaration [c.unplaced] := by
    split <;> rfl
  unfold Pending.start
  rw [c.token_unplaced, c.location_unplaced, hrule]
  cases c.token with
  | space | semicolon | comment | atKeyword => rfl
  | _ => exact hbegun

/-- The two readings give the same nodes, but for locations, or both fail. -/
def SameNodes (x y : Except LocatedFault (List Node)) : Prop :=
  x.toOption.map bareNodes = y.toOption

theorem SameNodes.bind {α : Type} {bare : α → α} {x y : Except LocatedFault α}
    {f g : α → Except LocatedFault (List Node)} (h : x.toOption.map bare = y.toOption)
    (hf : ∀ a, SameNodes (f a) (g (bare a))) : SameNodes (x.bind f) (y.bind g) := by
  cases x with
  | error e =>
    cases y with
    | error e' => rfl
    | ok b => cases h
  | ok a =>
    cases y with
    | error e' => cases h
    | ok b =>
      cases h
      exact hf a

theorem SameNodes.map {node node' : Node} (h : SameNodes x y) (hnode : node.bare = node') :
    SameNodes (x.map (node :: ·)) (y.map (node' :: ·)) := by
  subst hnode
  have hmap : ∀ (z : Except LocatedFault (List Node)) (node : Node),
      z.map (node :: ·) = z.bind fun nodes => .ok (node :: nodes) := by
    intro z node
    cases z <;> rfl
  rw [hmap, hmap]
  exact SameNodes.bind h fun nodes => rfl

theorem SameNodes.bind_declaration (stop : Location) (cs : List Component)
    {f g : Declaration → Except LocatedFault (List Node)}
    (hf : ∀ d, SameNodes (f d) (g d.bare)) : SameNodes ((readDeclaration stop cs).bind f)
      ((readDeclaration .nowhere (cs.map unplaced)).bind g) :=
  SameNodes.bind (readDeclaration_unplaced stop cs) hf

theorem SameNodes.of_error (hx : ∃ e, x = .error e) (hy : ∃ e, y = .error e) : SameNodes x y := by
  obtain ⟨e, rfl⟩ := hx
  obtain ⟨e', rfl⟩ := hy
  rfl

theorem sameNodes_finish (stop : Location) (pending : Pending) :
    SameNodes (pending.finish stop) (pending.unplaced.finish .nowhere) := by
  cases pending with
  | nothing | rule location seen => rfl
  | atRule name location seen =>
    rw [Pending.unplaced, Pending.finish, Pending.finish, spanText_unplaced]
    rfl
  | declaration seen =>
    rw [Pending.unplaced, Pending.finish, Pending.finish, ← map_reverse]
    exact SameNodes.bind_declaration stop seen.reverse fun d => rfl

theorem Pending.takes_unplaced (pending : Pending) (c : Component) :
    pending.unplaced.takes c.unplaced = pending.takes c := by
  cases pending <;> simp [takes, unplaced, c.isCurly_unplaced, isSemicolon_unplaced]

theorem Pending.unplaced_push (pending : Pending) (c : Component) :
    (pending.push [c]).unplaced = pending.unplaced.push [c.unplaced] := by
  cases pending <;> rfl

mutual

theorem sameNodes_parseBlock : ∀ c : Component, SameNodes (parseBlock c) (parseBlock c.unplaced)
  | .leaf l => by
    rw [unplaced_leaf, parseBlock, parseBlock]
    rfl
  | .block l b body stop close => by
    rw [unplaced_block, parseBlock, parseBlock]
    exact sameNodes_parseNodes body false stop .nothing

/-- **Reading gives the same nodes wherever the components stand.** -/
theorem sameNodes_parseNodes : ∀ (cs : List Component) (top : Bool) (stop : Location)
    (pending : Pending), SameNodes (parseNodes top stop pending cs)
      (parseNodes top .nowhere pending.unplaced (cs.map unplaced))
  | [] => fun top stop pending => by
    rw [map_nil, parseNodes, parseNodes]
    exact sameNodes_finish stop pending
  | c :: cs => fun top stop pending => by
    have hcurly := c.isCurly_unplaced
    have hsemicolon := isSemicolon_unplaced c
    rw [map_cons]
    cases htakes : pending.takes c with
    | true =>
      rw [parseNodes_push htakes, parseNodes_push (by rwa [Pending.takes_unplaced]),
        ← Pending.unplaced_push]
      exact sameNodes_parseNodes cs top stop _
    | false =>
    cases pending with
    | nothing =>
      rw [Pending.unplaced]
      cases hcomment : c.isComment with
      | true =>
        obtain ⟨text, htoken⟩ := isComment_iff.1 hcomment
        rw [parseNodes_comment htoken, parseNodes_comment (c.token_unplaced.trans htoken)]
        refine (sameNodes_parseNodes cs top stop .nothing).map ?_
        rw [Node.bare, c.location_unplaced]
      | false =>
        have hcomment' : c.unplaced.isComment = false := by
          rw [isComment, c.token_unplaced]
          exact hcomment
        cases hc : c.isCurly with
        | true =>
          rw [hc] at hcurly
          exact .of_error (parseNodes_nothing_curly hc hcomment)
            (parseNodes_nothing_curly hcurly hcomment')
        | false =>
          rw [hc] at hcurly
          rw [parseNodes_start hcomment hc, parseNodes_start hcomment' hcurly,
            ← Pending.unplaced_start]
          exact sameNodes_parseNodes cs top stop _
    | rule location seen =>
      rw [Pending.unplaced]
      have htext := preludeText_unplaced seen
      have hc : c.isCurly = true := by simpa [Pending.takes] using htakes
      rw [hc] at hcurly
      cases hempty : (preludeText seen).isEmpty with
      | true =>
        exact .of_error (parseNodes_rule_empty hc hempty)
          (parseNodes_rule_empty hcurly (by rw [htext, hempty]))
      | false =>
        rw [parseNodes_rule_body hc hempty,
          parseNodes_rule_body hcurly (by rw [htext, hempty]), htext]
        exact SameNodes.bind (sameNodes_parseBlock c) fun body =>
          (sameNodes_parseNodes cs top stop .nothing).map rfl
    | atRule name location seen =>
      rw [Pending.unplaced]
      have htext := preludeText_unplaced seen
      cases hc : c.isCurly with
      | true =>
        rw [hc] at hcurly
        rw [parseNodes_atRule_body hc, parseNodes_atRule_body hcurly, htext]
        exact SameNodes.bind (sameNodes_parseBlock c) fun body =>
          (sameNodes_parseNodes cs top stop .nothing).map rfl
      | false =>
        rw [hc] at hcurly
        have hs : c.isSemicolon = true := by simpa [Pending.takes, hc] using htakes
        rw [hs] at hsemicolon
        rw [parseNodes_atRule_end hc hs, parseNodes_atRule_end hcurly hsemicolon, htext]
        exact (sameNodes_parseNodes cs top stop .nothing).map rfl
    | declaration seen =>
      rw [Pending.unplaced]
      have hs : c.isSemicolon = true := by simpa [Pending.takes] using htakes
      rw [hs] at hsemicolon
      rw [parseNodes_declaration_end hs, parseNodes_declaration_end hsemicolon, ← map_cons,
        ← map_reverse]
      exact SameNodes.bind_declaration stop (c :: seen).reverse fun d =>
        (sameNodes_parseNodes cs top stop .nothing).map rfl

end

/-- **What a text holds, without locations and numbers.** -/
theorem Stylesheet.parse_bare (filename : Option String) (text : String) :
    (Stylesheet.parse filename text).toOption.map (fun sheet => bareNodes sheet.nodes)
      = (parseNodes true .nowhere .nothing (group .nowhere (Lexeme.cut text.toList))).toOption := by
  have hsame := sameNodes_parseNodes (Component.parse text.toList).1 true
    (Component.parse text.toList).2 .nothing
  have hgroup : (Component.parse text.toList).1.map unplaced
      = group .nowhere (Lexeme.cut text.toList) :=
    map_unplaced_group _ _
  rw [hgroup] at hsame
  refine Eq.trans ?_ hsame
  unfold Stylesheet.parse
  rcases Component.parse text.toList with ⟨components, stop⟩
  dsimp only
  cases parseNodes true stop .nothing components with
  | error e => rfl
  | ok nodes => exact congrArg some (bareNodes_numberNodes nodes 0)

theorem Stylesheet.render_bare {s t : Stylesheet} (h : bareNodes s.nodes = bareNodes t.nodes) :
    s.render = t.render := by
  have hmap : ∀ nodes : List Node, (bareNodes nodes).map (renderNode 0) = nodes.map (renderNode 0) := by
    intro nodes
    induction nodes with
    | nil => rfl
    | cons node nodes ih =>
      have hnode : renderNode 0 node.bare = renderNode 0 node := by
        simpa [bareNodes, renderNodes] using renderNodes_bareNodes [node] 0
      rw [bareNodes, map_cons, map_cons, hnode, ih]
  rw [Stylesheet.render, Stylesheet.render, ← hmap s.nodes, ← hmap t.nodes, h]

end StyleBlocks
