import StyleBlocks.Proofs.Stylesheet.Fragments
import StyleBlocks.Proofs.Token.Trailing

/-!
# Arguments

The argument of a pseudo-class is the text between two brackets, without the blanks around it.  It
is printed as it is, so it is read back only if it still ends at the bracket that is printed behind
it: without the blanks its tokens may be others.

* `isClosedArgument_of_argumentOf`: **no other argument is.**
-/

namespace StyleBlocks

open Component Lexeme List

variable {b : Bracket} {body : List Component} {c : Component} {l : Lexeme} {ls : List Lexeme}
  {cs : List Component}

/-- In brackets behind its name, the argument is one block, and the last bracket closes it. -/
def isClosedArgument (name argument : String) : Bool :=
  match (Component.parse (name.toList ++ '(' :: argument.toList ++ [')'])).1 with
  | [.block _ _ _ _ close] => !close.isEmpty
  | _ => false

/-! ## The first component -/

namespace Nesting

theorem fits_or_open_of_finish {stop : Location} {outer : List OpenBlock} {before : List Component}
    (h : Fitting outer before)
    (hcs : finish stop outer (.block l b body stop [] :: before) = c :: cs) :
    c.Fits none ∨ cs = [] ∧ ∃ l b body, c = .block l b body stop [] := by
  induction outer generalizing before l b body with
  | nil =>
    rw [finish, reverse_cons] at hcs
    cases hbefore : before.reverse with
    | nil =>
      rw [hbefore] at hcs
      cases hcs
      exact .inr ⟨rfl, l, b, body, rfl⟩
    | cons d ds =>
      rw [hbefore] at hcs
      cases hcs
      exact .inl (h c (mem_reverse.1 (hbefore ▸ mem_cons_self)))
  | cons o outer ih => exact ih h.2.2 hcs

end Nesting

/-- The first component of a text is closed, or it is the only one and reaches to the end. -/
theorem Component.fits_or_open_of_group (h : ∀ l ∈ ls, l.text ≠ [])
    (hcs : group .nowhere ls = c :: cs) :
    c.Fits none ∨ cs = [] ∧ ∃ l b body, c = .block l b body .nowhere [] := by
  obtain ⟨hfits, -⟩ := fitting_foldl h
  unfold group at hcs
  dsimp only at hcs
  cases hopened : (ls.foldl Nesting.step Nesting.empty).opened with
  | nil =>
    rw [hopened, Nesting.finish] at hcs
    rw [hopened] at hfits
    exact .inl (hfits c (mem_reverse.1 (hcs ▸ mem_cons_self)))
  | cons b outer =>
    rw [hopened, Nesting.finish] at hcs
    rw [hopened] at hfits
    exact Nesting.fits_or_open_of_finish hfits.2.2 hcs

/-! ## The name -/

section

variable {name : String} {q : List Char}

theorem read_paren (h : isIdentifier name = true) (q : List Char) :
    ∃ c s, name.toList = c :: s ∧ Token.read c (s ++ '(' :: q)
      = if name.toList.map Char.toLower == "url".toList then
          (readUrl q).getD (.function name, q) else (.function name, q) := by
  obtain ⟨hstart, hall⟩ := isIdentifier_iff.1 h
  obtain ⟨c, s, hcs⟩ := exists_cons_of_ne_nil (toList_ne_nil_of_isIdentifier h)
  have hends : EndsName ('(' :: q) := endsName_cons (by decide) (by decide) (by decide)
  refine ⟨c, s, hcs, ?_⟩
  rw [hcs] at hstart hall
  rw [read_append_of_startsIdent hstart hall (by simp),
    readIdentLike_of_paren (readName_append_of_endsName hall hends), ← hcs, String.ofList_toList]

/-- What follows the bracket is not read as an address. -/
def OpensArgument (name : String) (q : List Char) : Prop :=
  name.toList.map Char.toLower = "url".toList → readUrl q = none

theorem cut_function (h : isIdentifier name = true) (hq : OpensArgument name q) :
    cut (name.toList ++ '(' :: q) = ⟨.function name, name.toList ++ ['('], .nowhere⟩ :: cut q := by
  obtain ⟨c, s, hcs, hread⟩ := read_paren h q
  have htoken : Token.read c (s ++ '(' :: q) = (.function name, q) := by
    rw [hread]
    split
    · rename_i hurl
      rw [hq (eq_of_beq hurl), Option.getD_none]
    · rfl
  rw [hcs]
  exact cut_cons htoken (by simp)

theorem opensArgument_of_cut (h : isIdentifier name = true)
    (hcut : cut (name.toList ++ '(' :: q) = l :: ls) (hl : l.token.opens = some b) :
    OpensArgument name q := by
  intro hurl
  obtain ⟨c, s, hcs, hread⟩ := read_paren h q
  obtain ⟨c', w, rest, htext, hread', -, -⟩ := exists_of_cut_eq_cons hcut
  rw [hcs] at htext
  obtain ⟨rfl, htail⟩ := cons.inj htext
  have htail : s ++ '(' :: q = w ++ rest := htail
  rw [← htail, hread, if_pos (by simp [hurl])] at hread'
  cases hr : readUrl q with
  | none => rfl
  | some p =>
    obtain ⟨t, rest'⟩ := p
    rw [hr, Option.getD_some] at hread'
    have htoken : t = l.token := (Prod.mk.inj hread').1
    rcases isUrl_of_readUrl hr with ⟨v, hv⟩ | ⟨v, hv⟩
    all_goals
      rw [← htoken, hv] at hl
      cases hl

end

/-! ## Closed arguments -/

section

variable {name argument : String}

theorem read_closer (s : List Char) : Token.read ')' s = (.closer .round, s) := by
  rfl

theorem cut_closer (s : List Char) : cut (')' :: s) = ⟨.closer .round, [')'], .nowhere⟩ :: cut s :=
  cut_mark read_closer s

theorem exists_of_cut_eq_closer {s : List Char} {ls' : List Lexeme} {k : Lexeme}
    (h : cut s = ls ++ k :: ls') (hk : k.token = .closer .round) :
    ∃ r, s = ls.flatMap Lexeme.text ++ ')' :: r ∧ cut s = ls ++ cut (')' :: r) := by
  obtain ⟨c, w, rest, hs, hread, hlexeme, hrest⟩ := exists_of_cut_eq_append h
  have hreads := Token.reads_read c (w ++ rest)
  rw [hread, hk] at hreads
  obtain ⟨rfl, hw⟩ := hreads
  obtain rfl : w = [] := self_eq_append_left.1 hw
  refine ⟨rest, hs, ?_⟩
  rw [h, cut_closer, hrest, hlexeme, hk]
  rfl

theorem isClosedArgument_eq_true_iff : isClosedArgument name argument = true ↔
    ∃ l b body close, group .nowhere
        (cut (name.toList ++ '(' :: (argument.toList ++ [')'])))
      = [.block l b body .nowhere close] ∧ close ≠ [] := by
  have hgroup : ∀ s, group .nowhere (cut s) = (parse s).1.map Component.unplaced := by
    intro s
    rw [parse, map_unplaced_group, cut]
  unfold isClosedArgument
  rw [hgroup, append_assoc, cons_append]
  constructor
  · intro h
    split at h
    · rename_i l b body stop close hparse
      rw [hparse, map_singleton, unplaced_block]
      exact ⟨_, _, _, close, rfl, by simpa using h⟩
    · cases h
  · rintro ⟨l, b, body, close, hparse, hclose⟩
    obtain ⟨c, hc, heq⟩ := map_eq_singleton_iff.1 hparse
    rw [hc]
    cases c with
    | leaf l' =>
      cases heq
    | block l' b' body' stop' close' =>
      cases heq
      simpa using hclose

theorem isClosedArgument_iff (h : isIdentifier name = true) :
    isClosedArgument name argument = true ↔ OpensArgument name (argument.toList ++ [')']) ∧
      ∃ body, AllFit (some .round) body ∧
        cut (argument.toList ++ [')']) = flatOf body ++ cut [')'] := by
  rw [isClosedArgument_eq_true_iff]
  generalize hq : argument.toList ++ [')'] = q
  constructor
  · rintro ⟨l, b, body, close, hgroup, hclose⟩
    have hne : ∀ l ∈ cut (name.toList ++ '(' :: q), l.text ≠ [] :=
      fun l hl => text_ne_nil_of_mem_cut hl
    have hflat := flatOf_group .nowhere hne
    rw [hgroup, flatOf_singleton, flat, closing, if_neg hclose]
      at hflat
    obtain ⟨hopens, hbody⟩ : l.token.opens = some b ∧ AllFit (some b) body := by
      rcases fits_or_open_of_group hne hgroup with hfits | ⟨-, l', b', body', heq⟩
      · exact ⟨hfits.1, hfits.2.2⟩
      · cases heq
        exact absurd rfl hclose
    have hopens' := opensArgument_of_cut h hflat.symm hopens
    rw [cut_function h hopens'] at hflat
    obtain ⟨rfl, hcut⟩ := cons.inj hflat
    cases hopens
    obtain ⟨r, hr, hcut'⟩ := exists_of_cut_eq_closer hcut.symm rfl
    obtain rfl : r = [] := by
      have hlexemes := append_cancel_left (hcut.trans hcut')
      rw [cut_closer] at hlexemes
      have htext := congrArg (flatMap Lexeme.text) (cons.inj hlexemes).2
      rw [flatMap_text_cut] at htext
      exact htext.symm
    exact ⟨hopens', body, hbody, hcut'⟩
  · rintro ⟨hopens, body, hbody, hcut⟩
    have hblock : AllFit none [.block ⟨.function name, name.toList ++ ['('], .nowhere⟩
        .round body .nowhere [')']] := by
      rw [allFit_singleton, Fits]
      exact ⟨rfl, by simp, hbody⟩
    refine ⟨⟨.function name, name.toList ++ ['('], .nowhere⟩, .round, body, [')'], ?_, by simp⟩
    rw [← group_flatOf .nowhere hblock, cut_function h hopens, hcut, cut_closer,
      flatOf_singleton, flat, closing, if_neg (by simp),
      cut_nil]

theorem cut_argument_exchange {x r r' : List Char} (hbody : AllFit (some .round) body)
    (hx : ∀ c, x.getLast? = some c → isSpace c = false)
    (h : cut (x ++ ')' :: r) = flatOf body ++ cut (')' :: r)) :
    cut (x ++ ')' :: r') = flatOf body ++ cut (')' :: r') := by
  have hfirm : ∀ l, (flatOf body).getLast? = some l → l.token.isFirm = true :=
    fun l hl => isFirm_of_getLast? (by decide) h hl (opens_of_getLast?_flatOf hbody hl) hx
  rcases cut_exchange (endsToken_cons stop_round (by decide) r)
    (endsPiece_cons stop_round (by decide) (by decide) r') h hfirm with hcut | ⟨_, _, _, heq, -⟩
  · exact hcut
  · cases heq

theorem opensArgument_exchange {x r r' : List Char} (h : OpensArgument name (x ++ ')' :: r)) :
    OpensArgument name (x ++ ')' :: r') := by
  intro hurl
  have hnone := h hurl
  have hhead : ∀ v, ((x ++ ')' :: v).dropWhile isSpace).head?
      = (x.dropWhile isSpace ++ [')']).head? := by
    intro v
    rw [(takeWhile_append_of_head (p := isSpace) (by simp; decide) x).2]
    cases x.dropWhile isSpace <;> rfl
  rw [readUrl_eq_none_iff, hhead] at hnone ⊢
  exact hnone

/-- **A closed argument is cut off with its brackets, whatever follows it.** -/
theorem exists_cut_argument (h : isIdentifier name = true) (hargument : IsTrimmed argument.toList)
    (hclosed : isClosedArgument name argument = true) (r : List Char) :
    ∃ body, AllFit (some .round) body ∧ textOf body = argument.toList ∧
      cut (name.toList ++ '(' :: (argument.toList ++ ')' :: r))
        = flatOf [.block ⟨.function name, name.toList ++ ['('], .nowhere⟩ .round body
            .nowhere [')']] ++ cut r := by
  obtain ⟨hopens, body, hbody, hcut⟩ := (isClosedArgument_iff h).1 hclosed
  have hspace : ∀ c, argument.toList.getLast? = some c → isSpace c = false :=
    fun c hc => isSpace_of_not_isBlank (hargument.last c hc)
  refine ⟨body, hbody, ?_, ?_⟩
  · have htext := congrArg (flatMap Lexeme.text) hcut
    rw [flatMap_text_cut, flatMap_append, flatMap_text_flatOf, flatMap_text_cut] at htext
    exact (append_cancel_right htext).symm
  rw [cut_function h (opensArgument_exchange hopens),
    cut_argument_exchange hbody hspace hcut, cut_closer, flatOf_singleton,
    flat, closing, if_neg (by simp)]
  simp

end

/-! ## Arguments that are read back -/

theorem eq_of_trim_of_isPrefix {u v r : List Char} (hu : u <+: v ++ ')' :: r) (h : trim u = v) :
    u = v := by
  have htrimmed := isTrimmed_trim u
  rw [h] at htrimmed
  obtain ⟨t, ht⟩ := hu
  have hparen : isBlank ')' = false := by decide
  cases v with
  | nil =>
    cases u with
    | nil => rfl
    | cons a u =>
      obtain ⟨rfl, -⟩ := List.cons.inj ht
      have hmem := mem_trim_of_mem (s := ')' :: u) mem_cons_self hparen
      rw [h] at hmem
      cases hmem
  | cons a v =>
    have hhead : u.head? = some a := by
      cases u with
      | nil => cases h
      | cons b u =>
        obtain ⟨rfl, -⟩ := List.cons.inj ht
        rfl
    have hend : trimEnd u = a :: v := by
      rw [trimEnd_eq_trim, h]
      intro c hc
      rw [hhead] at hc
      cases hc
      exact htrimmed.head a rfl
    obtain ⟨blanks, hblanks, hall⟩ := trimEnd_append_blanks u
    rw [hend] at hblanks
    rw [hblanks, append_assoc] at ht
    have htail := append_cancel_left ht
    cases blanks with
    | nil => rw [hblanks, append_nil]
    | cons b blanks =>
      obtain ⟨rfl, -⟩ := List.cons.inj htail
      rw [hall ')' mem_cons_self] at hparen
      cases hparen

theorem Component.Fits.exists_block {outer : Option Bracket} {n : String} (h : c.Fits outer)
    (hc : c.token = .function n) : ∃ l body stop close,
      c = .block l .round body stop close ∧ l.token = .function n ∧ close ≠ [] ∧
        Component.AllFit (some .round) body := by
  cases c with
  | leaf l =>
    have htoken : l.token = .function n := hc
    rw [Component.Fits, htoken] at h
    cases h.1
  | block l b body stop close =>
    have htoken : l.token = .function n := hc
    rw [Component.Fits, htoken] at h
    obtain ⟨hb, hclose, hbody⟩ := h
    cases hb
    exact ⟨l, body, stop, close, rfl, htoken, hclose, hbody⟩

section

variable {name argument n : String} {r : List Char}

theorem textOf_of_argumentOf {stop : Location} {close : List Char} (h : isIdentifier name = true)
    (hcs : group .nowhere (cut (name.toList ++ '(' :: (argument.toList ++ ')' :: r)))
      = .block l b body stop close :: cs)
    (htoken : l.token = .function n)
    (hargument : argumentOf (.block l b body stop close) = argument) :
    OpensArgument name (argument.toList ++ ')' :: r) ∧
      cut (argument.toList ++ ')' :: r)
        = flatOf body ++ (closing b stop close ++ flatOf cs) ∧
      textOf body = argument.toList := by
  have hflat := flatOf_group .nowhere fun l hl => text_ne_nil_of_mem_cut
    (s := name.toList ++ '(' :: (argument.toList ++ ')' :: r)) hl
  rw [hcs, flatOf, flat, cons_append] at hflat
  have hopens := opensArgument_of_cut (b := .round) h hflat.symm (by rw [htoken]; rfl)
  rw [cut_function h hopens] at hflat
  have hcut := (cons.inj hflat).2
  have htrim : trim (textOf body) = argument.toList := by
    rw [← hargument, argumentOf, String.toList_ofList]
  have htext := congrArg (flatMap Lexeme.text) hcut
  rw [flatMap_text_cut, append_assoc, flatMap_append, flatMap_text_flatOf] at htext
  exact ⟨hopens, by rw [← hcut, append_assoc], eq_of_trim_of_isPrefix ⟨_, htext⟩ htrim⟩

theorem isClosedArgument_of_argumentOf (h : isIdentifier name = true)
    (hcs : group .nowhere (cut (name.toList ++ '(' :: (argument.toList ++ ')' :: r))) = c :: cs)
    (hc : c.token = .function n) (hargument : argumentOf c = argument) :
    isClosedArgument name argument = true := by
  rcases fits_or_open_of_group (fun l hl => text_ne_nil_of_mem_cut hl) hcs with
    hfits | ⟨rfl, l, b, body, rfl⟩
  · obtain ⟨l, body, stop, close, rfl, htoken, hclose, hfit⟩ := hfits.exists_block hc
    obtain ⟨hopens, hcut, hbody⟩ := textOf_of_argumentOf h hcs htoken hargument
    rw [closing, if_neg hclose, singleton_append] at hcut
    obtain ⟨r', hr, hcut'⟩ := exists_of_cut_eq_closer hcut rfl
    rw [flatMap_text_flatOf, hbody] at hr
    obtain rfl : r = r' := (cons.inj (append_cancel_left hr)).2
    have htrimmed : IsTrimmed argument.toList := by
      rw [← hargument, argumentOf, String.toList_ofList]
      exact isTrimmed_trim _
    exact (isClosedArgument_iff h).2 ⟨opensArgument_exchange hopens, body, hfit,
      cut_argument_exchange hfit (fun c hc => isSpace_of_not_isBlank (htrimmed.last c hc)) hcut'⟩
  · -- the text ends inside the argument, so the bracket behind it is part of it
    obtain ⟨-, hcut, hbody⟩ := textOf_of_argumentOf h hcs hc hargument
    have htext := congrArg (flatMap Lexeme.text) hcut
    rw [flatMap_text_cut, flatMap_append, flatMap_text_flatOf, hbody] at htext
    cases append_cancel_left htext

end

end StyleBlocks
