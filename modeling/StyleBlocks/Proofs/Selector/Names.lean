import StyleBlocks.Proofs.Selector.Pieces

/-!
# Names hold no null character

A null character in a text is read as the replacement character, and a null escape as well, so no
name that is read holds one.  Such names can be written and read back.
-/

namespace StyleBlocks

/-- The text does not hold the null character. -/
def NulFree (s : String) : Prop :=
  '\x00' ∉ s.toList

theorem nulFree_of_isIdentifier {name : String} (h : isIdentifier name = true) : NulFree name :=
  fun hnul => ne_nul_of_isNameChar ((isIdentifier_iff.1 h).2 _ hnul) rfl

theorem nulFree_append {s t : String} (hs : NulFree s) (ht : NulFree t) : NulFree (s ++ t) := by
  simp only [NulFree, String.toList_append, List.mem_append, not_or]
  exact ⟨hs, ht⟩

/-! ## Tokens -/

/-- The name or the value of a token does not hold the null character. -/
def Token.IsNulFree (t : Token) : Prop :=
  ∀ v, t = .ident v ∨ t = .string v → NulFree v

theorem Token.isNulFree_read (c : Char) (s : List Char) : (Token.read c s).1.IsNulFree := by
  rintro v (h | h)
  · obtain ⟨-, hname⟩ := Lexeme.readName_of_token_eq_ident h
    have := readName_ne_nul (c :: s)
    rw [hname] at this
    exact this
  have hread := Token.reads_read c s
  rw [h] at hread
  have := readString_ne_nul c s
  rw [hread.2] at this
  exact this

/-! ## Selectors -/

def Compound.IsNulFree (c : Compound) : Prop :=
  ∀ p ∈ c.flatMap Simple.pieces, ∀ name, p.text? = some name → NulFree name

def Selector.IsNulFree (s : Selector) : Prop :=
  ∀ c ∈ s.compounds, c.IsNulFree

/-- **What is read from a text has names without the null character only.** -/
theorem Selector.isNulFree_of_parseList {text : String} {selectors : List Selector}
    (h : Selector.parseList text = .ok selectors) : ∀ s ∈ selectors, s.IsNulFree := by
  intro s hs c hc p hp name hname
  obtain ⟨ls, hls, hsub⟩ := Selector.shown_of_parseList h s hs
  have hpieces : p ∈ s.pieces := by
    obtain ⟨simple, hsimple, hp⟩ := List.mem_flatMap.1 hp
    exact List.mem_flatMap.2 ⟨simple, List.mem_flatten.2 ⟨c, hc, hsimple⟩, hp⟩
  obtain ⟨l, hl, hshows⟩ := exists_left_of_forall₂ hls hpieces
  obtain ⟨_, _, -, htoken, -⟩ := Lexeme.exists_read_of_mem (hsub.subset hl)
  exact Token.isNulFree_read _ _ name (htoken ▸ hshows.token hname)

/-! ## Paths -/

namespace ObjectPath

/-- The names in a path, that of the block apart, can be read: they do not hold the null character,
and no class is called like the root. -/
structure IsReadable (p : ObjectPath) : Prop where
  className : ∀ name, p.className = some name → NulFree name ∧ name ≠ "root"
  state : ∀ state, p.state = some state →
    NulFree state.name ∧ ∀ group, state.group = some group → NulFree group

theorem isReadable_ofCompound {compound : Compound} {path : ObjectPath} {rest : List Simple}
    (hc : compound.IsNulFree) (h : ofCompound compound = .ok (path, rest)) : path.IsReadable := by
  have hfree : ∀ p ∈ path.pieces, ∀ name, p.text? = some name → NulFree name :=
    fun p hp => hc p ((subperm_pieces_ofCompound h).subset hp)
  have hroot : path.className ≠ some "root" := by
    rw [(ofCompound_ok_iff.1 h).2.1]
    exact className_objectPath compound
  refine ⟨fun name hname => ⟨hfree (.name name) ?_ name rfl, fun he => hroot (he ▸ hname)⟩,
    fun state hstate => ?_⟩
  · simp [pieces, hname]
  obtain ⟨_ | group, name⟩ := state
  · exact ⟨hfree (.name name) (by simp [pieces, hstate, StateName.pieces]) name rfl, by simp⟩
  · refine ⟨hfree (.value name) (by simp [pieces, hstate, StateName.pieces]) name rfl, ?_⟩
    rintro _ ⟨⟩
    exact hfree (.name group) (by simp [pieces, hstate, StateName.pieces]) group rfl

end ObjectPath

end StyleBlocks
