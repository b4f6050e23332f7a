import Mathlib.Data.List.Forall2
import Mathlib.Logic.Relation
import Mathlib.Order.Defs.Unbundled

/-!
# Steps that change a state and may fail

Loading and settling are both made of steps `ExceptT ε (StateM σ) α`: a step gives a result or fails,
and leaves a state in either case.  Four kinds of facts are proved about them.

* What a step that succeeds has done: `run_bind_ok` takes a sequence of steps apart, and `forM_ok`,
  `mapM_ok` and `foldlM_ok` carry an invariant through the loops.
* What no step does, whether it fails or not: `Leads R x` says that the states before and after `x`
  are related by the preorder `R`, and is closed under sequences, loops and recovery.
* That steps do not fail: `Succeeds P x` says that `x` succeeds from every state with the property `P`
  and keeps it.
* What two steps have in common: `Alike S x y` says that from states related by `S` both give the
  same result and lead to states related by `S`.  `Couples P x y Q` is about steps that both succeed:
  from states related by `P` they lead to results and states related by `Q`.
-/

namespace StyleBlocks

open List

section

variable {σ ε α β : Type} {l : List α} {m : List β} {R : α → β → Prop} {s s' : σ} {a : α} {b : β}

/-! ## Success -/

theorem run_bind (x : ExceptT ε (StateM σ) α) (f : α → ExceptT ε (StateM σ) β) (s : σ) :
    (x >>= f).run s = match x.run s with
      | (.ok a, t) => (f a).run t
      | (.error e, t) => (.error e, t) := by
  change ExceptT.bindCont f (x.run s).1 (x.run s).2 = _
  rcases x.run s with ⟨_ | _, t⟩ <;> rfl

theorem run_bind_ok {x : ExceptT ε (StateM σ) α} {f : α → ExceptT ε (StateM σ) β}
    (h : (x >>= f).run s = (.ok b, s')) :
    ∃ a t, x.run s = (.ok a, t) ∧ (f a).run t = (.ok b, s') := by
  rw [run_bind] at h
  rcases hx : x.run s with ⟨e | a, t⟩
  · rw [hx] at h
    cases h
  · rw [hx] at h
    exact ⟨a, t, rfl, h⟩

theorem except_bind_ok {x : Except ε α} {f : α → Except ε β} (h : (x >>= f) = .ok b) :
    ∃ a, x = .ok a ∧ f a = .ok b := by
  cases x with
  | error e => cases h
  | ok a => exact ⟨a, rfl, h⟩

theorem except_toOption_some {x : Except ε α} (h : x.toOption = some a) : x = .ok a := by
  cases x with
  | error e => cases h
  | ok b => exact congrArg _ (Option.some.inj h)

theorem except_map_ok {x : Except ε α} {f : α → β} (h : x.map f = .ok b) :
    ∃ a, x = .ok a ∧ f a = b := by
  cases x with
  | error e => cases h
  | ok a => exact ⟨a, rfl, Except.ok.inj h⟩

theorem except_mapError_ok_iff {ε' : Type} {x : Except ε α} {f : ε → ε'} :
    x.mapError f = .ok a ↔ x = .ok a := by
  cases x <;> simp [Except.mapError]

theorem run_tryCatch (x : ExceptT ε (StateM σ) α) (handle : ε → ExceptT ε (StateM σ) α) (s : σ) :
    (tryCatch x handle).run s = match x.run s with
      | (.ok a, t) => (.ok a, t)
      | (.error e, t) => (handle e).run t := by
  change (match (x.run s).1 with
    | .ok a => Pure.pure (.ok a)
    | .error e => handle e : StateM σ (Except ε α)) (x.run s).2 = _
  rcases x.run s with ⟨_ | _, t⟩ <;> rfl

theorem run_map_ok {x : ExceptT ε (StateM σ) α} {f : α → β} (h : (f <$> x).run s = (.ok b, s')) :
    ∃ a, x.run s = (.ok a, s') ∧ f a = b := by
  obtain ⟨a, t, hx, hp⟩ := run_bind_ok h
  cases hp
  exact ⟨a, hx, rfl⟩

/-- **An invariant of a loop holds at its end.**  It may speak of what is done, and a step may use
that the rest is still to be done. -/
theorem forM_ok {f : α → ExceptT ε (StateM σ) PUnit} (I : List α → σ → Prop)
    (step : ∀ done a rest s s', l = done ++ a :: rest → I done s → (f a).run s = (.ok ⟨⟩, s') →
      I (done ++ [a]) s')
    {u : PUnit} (h : (l.forM f).run s = (.ok u, s')) (hs : I [] s) : I l s' := by
  suffices H : ∀ rest done s, l = done ++ rest → I done s →
      (rest.forM f).run s = (.ok u, s') → I l s' from H l [] s rfl hs h
  intro rest
  induction rest with
  | nil =>
    intro done s hl hI hr
    cases hr
    rwa [hl, append_nil]
  | cons a rest ih =>
    intro done s hl hI hr
    obtain ⟨_, t, ha, hr⟩ := run_bind_ok hr
    exact ih (done ++ [a]) t (by simp [hl]) (step done a rest s t hl hI ha) hr

theorem mapM_ok {f : α → ExceptT ε (StateM σ) β} (I : List α → List β → σ → Prop)
    (step : ∀ done bs a rest s b s', l = done ++ a :: rest → I done bs s →
      (f a).run s = (.ok b, s') → I (done ++ [a]) (bs ++ [b]) s')
    {bs : List β} (h : (l.mapM f).run s = (.ok bs, s')) (hs : I [] [] s) : I l bs s' := by
  suffices H : ∀ rest done bs₀ bs₁ s, l = done ++ rest → I done bs₀ s →
      (rest.mapM f).run s = (.ok bs₁, s') → I l (bs₀ ++ bs₁) s' from H l [] [] bs s rfl hs h
  intro rest
  induction rest with
  | nil =>
    intro done bs₀ bs₁ s hl hI hr
    rw [mapM_nil] at hr
    cases hr
    rwa [hl, append_nil, append_nil]
  | cons a rest ih =>
    intro done bs₀ bs₁ s hl hI hr
    rw [mapM_cons] at hr
    obtain ⟨b, t, ha, hr⟩ := run_bind_ok hr
    obtain ⟨bs₂, t₂, hrest, hp⟩ := run_bind_ok hr
    cases hp
    have := ih (done ++ [a]) (bs₀ ++ [b]) bs₂ t (by simp [hl]) (step _ _ _ _ _ _ _ hl hI ha) hrest
    simpa using this

theorem foldlM_ok {f : β → α → ExceptT ε (StateM σ) β} (I : List α → β → σ → Prop)
    (step : ∀ done a rest b s b' s', l = done ++ a :: rest → I done b s →
      (f b a).run s = (.ok b', s') → I (done ++ [a]) b' s')
    {b' : β} (h : (l.foldlM f b).run s = (.ok b', s')) (hs : I [] b s) : I l b' s' := by
  suffices H : ∀ rest done b s, l = done ++ rest → I done b s →
      (rest.foldlM f b).run s = (.ok b', s') → I l b' s' from H l [] b s rfl hs h
  intro rest
  induction rest with
  | nil =>
    intro done b s hl hI hr
    cases hr
    rwa [hl, append_nil]
  | cons a rest ih =>
    intro done b s hl hI hr
    obtain ⟨b₁, t, ha, hr⟩ := run_bind_ok hr
    exact ih (done ++ [a]) b₁ t (by simp [hl]) (step _ _ _ _ _ _ _ hl hI ha) hr

/-! ## Lists -/

theorem filterMap_concat (f : α → Option β) (l : List α) (a : α) :
    (l ++ [a]).filterMap f = l.filterMap f ++ (f a).toList := by
  cases h : f a <;> simp [h]

theorem length_append_toList_le_one {o : Option α} :
    (l ++ o.toList).length ≤ 1 ↔ l.length ≤ 1 ∧ (o = none ∨ l = []) := by
  cases o with
  | none => simp
  | some a => cases l <;> simp

theorem mk_append_inj {b' : β} {l' r : List α} (h : (b, l ++ r) = (b', l' ++ r)) :
    b = b' ∧ l = l' := by
  obtain ⟨hb, hl⟩ := Prod.mk.inj h
  exact ⟨hb, append_cancel_right hl⟩

theorem eq_of_perm {l' : List α} (h : l.Perm l') (hl : l.length ≤ 1) : l = l' := by
  rcases l with _ | ⟨a, _ | ⟨b, l⟩⟩
  · exact h.nil_eq
  · exact (perm_singleton.1 h.symm).symm
  · simp at hl

theorem findIdx?_modify {p : α → Bool} {f : α → α} (h : ∀ a, p (f a) = p a) (l : List α) (i : Nat) :
    (l.modify i f).findIdx? p = l.findIdx? p := by
  induction l generalizing i with
  | nil => simp
  | cons a l ih => cases i <;> simp [findIdx?_cons, h, ih]

theorem exists_left_of_forall₂ (h : Forall₂ R l m) (hb : b ∈ m) : ∃ a ∈ l, R a b := by
  induction h with
  | nil => simp at hb
  | @cons a b' l m hab _ ih =>
    rcases mem_cons.1 hb with rfl | hb
    · exact ⟨a, by simp, hab⟩
    · obtain ⟨a', ha', hR⟩ := ih hb
      exact ⟨a', by simp [ha'], hR⟩

theorem exists_right_of_forall₂ (h : Forall₂ R l m) (ha : a ∈ l) : ∃ b ∈ m, R a b :=
  exists_left_of_forall₂ (R := flip R) (Forall₂.flip h) ha

theorem exists_sublist_of_forall₂ {m' : List β} (h : Forall₂ R l m) (hm : m'.Sublist m) :
    ∃ l', l'.Sublist l ∧ Forall₂ R l' m' := by
  induction hm generalizing l with
  | slnil =>
    cases h
    exact ⟨[], Sublist.refl _, .nil⟩
  | cons b _ ih =>
    cases h with
    | cons _ ht =>
      obtain ⟨l', hl', hr⟩ := ih ht
      exact ⟨l', hl'.cons _, hr⟩
  | cons_cons b _ ih =>
    cases h with
    | cons hab ht =>
      obtain ⟨l', hl', hr⟩ := ih ht
      exact ⟨_ :: l', hl'.cons_cons _, .cons hab hr⟩

theorem forall₂_imp_of_mem {S : α → β → Prop} (h : Forall₂ R l m)
    (hS : ∀ a b, a ∈ l → R a b → S a b) : Forall₂ S l m := by
  induction h with
  | nil => exact .nil
  | @cons a b l m hab _ ih =>
    exact .cons (hS a b (by simp) hab) (ih fun a' b' ha' => hS a' b' (by simp [ha']))

theorem forall₂_comp {γ : Type} {S : β → γ → Prop} {n : List γ} (h : Forall₂ R l m)
    (h' : Forall₂ S m n) : Forall₂ (Relation.Comp R S) l n := by
  induction h generalizing n with
  | nil =>
    cases h'
    exact .nil
  | cons hab _ ih =>
    cases h' with
    | cons hbc h' => exact .cons ⟨_, hab, hbc⟩ (ih h')

theorem mapM_eq_ok_iff {f : α → Except ε β} :
    l.mapM f = .ok m ↔ Forall₂ (fun a b => f a = .ok b) l m := by
  constructor
  · intro h
    induction l generalizing m with
    | nil =>
      cases h
      exact .nil
    | cons a l ih =>
      rw [mapM_cons] at h
      obtain ⟨b, ha, h⟩ := except_bind_ok h
      obtain ⟨bs', hl, h⟩ := except_bind_ok h
      cases h
      exact .cons ha (ih hl)
  · intro h
    induction h with
    | nil => rfl
    | cons ha _ ih =>
      rw [mapM_cons, ha, ih]
      rfl

theorem mapM_eq_ok {f : α → Except ε β} {g : α → β} (h : ∀ a ∈ l, f a = .ok (g a)) :
    l.mapM f = .ok (l.map g) :=
  mapM_eq_ok_iff.2 (forall₂_map_right_iff.2 (forall₂_same.2 h))

theorem map_of_mapM_ok {f : α → Except ε β} {g : α → β} (h : l.mapM f = .ok m)
    (hg : ∀ a b, f a = .ok b → g a = b) : l.map g = m := by
  have hmap := (mapM_eq_ok_iff.1 h).imp hg
  rwa [← forall₂_map_left_iff, forall₂_eq_eq_eq] at hmap

/-! ## Success and failure -/

/-- The states before and after a step are related, whether the step fails or not. -/
def Leads (R : σ → σ → Prop) (x : ExceptT ε (StateM σ) α) : Prop :=
  ∀ s, R s (x.run s).2

/-- The second state has the property if the first has it. -/
def Keeps (P : σ → Prop) (s s' : σ) : Prop :=
  P s → P s'

instance {P : σ → Prop} : Std.Refl (Keeps P) :=
  ⟨fun _ h => h⟩

instance {P : σ → Prop} : IsTrans σ (Keeps P) :=
  ⟨fun _ _ _ h h' hs => h' (h hs)⟩

namespace Leads

variable {R : σ → σ → Prop} {x : ExceptT ε (StateM σ) α} {f : α → ExceptT ε (StateM σ) β}

theorem of_ok (h : Leads R x) (hx : x.run s = (.ok a, s')) : R s s' := by
  have := h s
  rwa [hx] at this

theorem mono {R' : σ → σ → Prop} (h : Leads R x) (hR : ∀ s s', R s s' → R' s s') : Leads R' x :=
  fun s => hR _ _ (h s)

section

variable [Std.Refl R]

theorem pure (a : α) : Leads R (Pure.pure a : ExceptT ε (StateM σ) α) :=
  fun s => Std.Refl.refl s

theorem throw (e : ε) : Leads R (MonadExcept.throw e : ExceptT ε (StateM σ) α) :=
  fun s => Std.Refl.refl s

theorem get : Leads R (MonadState.get : ExceptT ε (StateM σ) σ) :=
  fun s => Std.Refl.refl s

end

/-- A sequence from one state on, where the second step may use what the first one gave. -/
theorem bind_run [IsTrans σ R] {s : σ} (hx : R s (x.run s).2)
    (hf : ∀ a t, x.run s = (.ok a, t) → R t ((f a).run t).2) : R s ((x >>= f).run s).2 := by
  rw [run_bind]
  rcases hr : x.run s with ⟨_ | a, t⟩ <;> rw [hr] at hx
  · exact hx
  · exact IsTrans.trans _ _ _ hx (hf a t hr)

theorem bind [IsTrans σ R] (hx : Leads R x) (hf : ∀ a, Leads R (f a)) : Leads R (x >>= f) :=
  fun s => bind_run (hx s) fun a t _ => hf a t

variable [Std.Refl R] [IsTrans σ R]

theorem forM {f : α → ExceptT ε (StateM σ) PUnit} (hf : ∀ a ∈ l, Leads R (f a)) :
    Leads R (l.forM f) := by
  induction l with
  | nil => exact .pure _
  | cons a l ih =>
    exact (hf a (by simp)).bind fun _ => ih fun b hb => hf b (by simp [hb])

theorem mapM (hf : ∀ a ∈ l, Leads R (f a)) : Leads R (l.mapM f) := by
  induction l with
  | nil => exact .pure _
  | cons a l ih =>
    rw [mapM_cons]
    exact (hf a (by simp)).bind fun _ => (ih fun b hb => hf b (by simp [hb])).bind fun _ => .pure _

omit [Std.Refl R] in
theorem tryCatch {handle : ε → ExceptT ε (StateM σ) α} (hx : Leads R x)
    (hh : ∀ e, Leads R (handle e)) : Leads R (MonadExcept.tryCatch x handle) := by
  intro s
  have h := hx s
  rw [run_tryCatch]
  rcases hr : x.run s with ⟨e | a, t⟩ <;> rw [hr] at h
  · exact IsTrans.trans _ _ _ h (hh e t)
  · exact h

end Leads

/-! ## Steps that do not fail -/

/-- From every state with the property the step succeeds, and the property is kept. -/
def Succeeds (P : σ → Prop) (x : ExceptT ε (StateM σ) α) : Prop :=
  ∀ s, P s → ∃ a s', x.run s = (.ok a, s') ∧ P s'

namespace Succeeds

variable {P : σ → Prop} {x : ExceptT ε (StateM σ) α} {f : α → ExceptT ε (StateM σ) β}

theorem pure (a : α) : Succeeds P (Pure.pure a : ExceptT ε (StateM σ) α) :=
  fun s hs => ⟨a, s, rfl, hs⟩

theorem bind (hx : Succeeds P x) (hf : ∀ a, Succeeds P (f a)) : Succeeds P (x >>= f) := by
  intro s hs
  obtain ⟨a, t, hrun, ht⟩ := hx s hs
  obtain ⟨b, u, hrun', hu⟩ := hf a t ht
  refine ⟨b, u, ?_, hu⟩
  rw [run_bind, hrun]
  exact hrun'

theorem foldlM {g : β → α → ExceptT ε (StateM σ) β}
    (hg : ∀ b, ∀ a ∈ l, Succeeds P (g b a)) (b : β) : Succeeds P (l.foldlM g b) := by
  induction l generalizing b with
  | nil => exact .pure _
  | cons a l ih =>
    rw [foldlM_cons]
    exact (hg b a (by simp)).bind fun b' => ih (fun b a ha => hg b a (by simp [ha])) b'

end Succeeds

/-! ## Two steps at once -/

/-- From related states both steps give the same result, and the states that they leave are related.
-/
def Alike {τ : Type} (S : σ → τ → Prop) (x : ExceptT ε (StateM σ) α) (y : ExceptT ε (StateM τ) α) :
    Prop :=
  ∀ s t, S s t → (x.run s).1 = (y.run t).1 ∧ S (x.run s).2 (y.run t).2

namespace Alike

variable {τ : Type} {S : σ → τ → Prop}

theorem pure (a : α) :
    Alike S (Pure.pure a : ExceptT ε (StateM σ) α) (Pure.pure a : ExceptT ε (StateM τ) α) :=
  fun _ _ h => ⟨rfl, h⟩

theorem throw (e : ε) : Alike S (MonadExcept.throw e : ExceptT ε (StateM σ) α)
    (MonadExcept.throw e : ExceptT ε (StateM τ) α) :=
  fun _ _ h => ⟨rfl, h⟩

theorem bind {x : ExceptT ε (StateM σ) α} {y : ExceptT ε (StateM τ) α}
    {f : α → ExceptT ε (StateM σ) β} {g : α → ExceptT ε (StateM τ) β} (h : Alike S x y)
    (hf : ∀ a, Alike S (f a) (g a)) : Alike S (x >>= f) (y >>= g) := by
  intro s t hst
  obtain ⟨hresult, hstate⟩ := h s t hst
  rw [run_bind, run_bind]
  rcases hx : x.run s with ⟨e | a, s'⟩ <;> rcases hy : y.run t with ⟨e' | a', t'⟩ <;>
    rw [hx, hy] at hresult hstate <;> cases hresult
  · exact ⟨rfl, hstate⟩
  · exact hf a s' t' hstate

theorem mapM {f : α → ExceptT ε (StateM σ) β} {g : α → ExceptT ε (StateM τ) β}
    (h : ∀ a ∈ l, Alike S (f a) (g a)) : Alike S (l.mapM f) (l.mapM g) := by
  induction l with
  | nil => exact .pure []
  | cons a l ih =>
    rw [mapM_cons, mapM_cons]
    refine (h a (by simp)).bind fun b => ?_
    exact (ih fun a' ha' => h a' (by simp [ha'])).bind fun bs => .pure _

theorem foldlM {f : β → α → ExceptT ε (StateM σ) β} {g : β → α → ExceptT ε (StateM τ) β}
    (h : ∀ b, ∀ a ∈ l, Alike S (f b a) (g b a)) (b : β) :
    Alike S (l.foldlM f b) (l.foldlM g b) := by
  induction l generalizing b with
  | nil => exact .pure b
  | cons a l ih =>
    exact (h b a (by simp)).bind fun b' => ih (fun b a' ha' => h b a' (by simp [ha'])) b'

end Alike

/-- Where both steps succeed from states related by `P`, their results and the states that they leave
are related by `Q`. -/
def Couples {τ : Type} (P : σ → τ → Prop) (x : ExceptT ε (StateM σ) α) (y : ExceptT ε (StateM τ) β)
    (Q : α → β → σ → τ → Prop) : Prop :=
  ∀ s t a b s' t', P s t → x.run s = (.ok a, s') → y.run t = (.ok b, t') → Q a b s' t'

namespace Couples

variable {τ γ δ : Type} {P : σ → τ → Prop} {Q : α → β → σ → τ → Prop} {x : ExceptT ε (StateM σ) α}
  {y : ExceptT ε (StateM τ) β}

theorem pure (h : ∀ s t, P s t → Q a b s t) :
    Couples P (Pure.pure a : ExceptT ε (StateM σ) α) (Pure.pure b : ExceptT ε (StateM τ) β) Q := by
  intro s t _ _ _ _ hst hx hy
  cases hx
  cases hy
  exact h s t hst

theorem throw (e : ε) : Couples P (MonadExcept.throw e : ExceptT ε (StateM σ) α) y Q := by
  intro _ _ _ _ _ _ _ hx
  cases hx

theorem get : Couples P (MonadState.get : ExceptT ε (StateM σ) σ)
    (MonadState.get : ExceptT ε (StateM τ) τ) fun _ _ => P := by
  intro _ _ _ _ _ _ hst hx hy
  cases hx
  cases hy
  exact hst

theorem throw_right (e : ε) : Couples P x (MonadExcept.throw e : ExceptT ε (StateM τ) β) Q := by
  intro _ _ _ _ _ _ _ _ hy
  cases hy

theorem bind {R : γ → δ → σ → τ → Prop} {f : α → ExceptT ε (StateM σ) γ}
    {g : β → ExceptT ε (StateM τ) δ} (h : Couples P x y Q)
    (hf : ∀ a b, Couples (Q a b) (f a) (g b) R) : Couples P (x >>= f) (y >>= g) R := by
  intro s t c d s' t' hst hx hy
  obtain ⟨a, s₁, hx, hfx⟩ := run_bind_ok hx
  obtain ⟨b, t₁, hy, hgy⟩ := run_bind_ok hy
  exact hf a b s₁ t₁ c d s' t' (h s t a b s₁ t₁ hst hx hy) hfx hgy

theorem weaken {P' : σ → τ → Prop} (h : Couples P x y Q) (hP : ∀ s t, P' s t → P s t) :
    Couples P' x y Q :=
  fun s t a b s' t' hst => h s t a b s' t' (hP s t hst)

theorem assume {p : Prop} (h : p → Couples P x y Q) : Couples (fun s t => p ∧ P s t) x y Q :=
  fun s t a b s' t' hst => h hst.1 s t a b s' t' hst.2

theorem imp {Q' : α → β → σ → τ → Prop} (h : Couples P x y Q)
    (hQ : ∀ a b s t, Q a b s t → Q' a b s t) : Couples P x y Q' :=
  fun s t a b s' t' hst hx hy => hQ a b s' t' (h s t a b s' t' hst hx hy)

theorem map {R : γ → δ → σ → τ → Prop} {f : α → γ} {g : β → δ} (h : Couples P x y Q)
    (hf : ∀ a b s t, Q a b s t → R (f a) (g b) s t) : Couples P (f <$> x) (g <$> y) R := by
  exact h.bind fun a b => .pure (hf a b)

theorem forM₂ {f : α → ExceptT ε (StateM σ) PUnit} {g : β → ExceptT ε (StateM τ) PUnit}
    (hl : Forall₂ R l m)
    (h : ∀ a b, R a b → Couples P (f a) (g b) fun _ _ => P) :
    Couples P (l.forM f) (m.forM g) fun _ _ => P := by
  induction hl with
  | nil => exact .pure fun _ _ hst => hst
  | cons hab _ ih => exact (h _ _ hab).bind fun _ _ => ih

theorem forM {f : α → ExceptT ε (StateM σ) PUnit} {g : α → ExceptT ε (StateM τ) PUnit}
    (h : ∀ a, Couples P (f a) (g a) fun _ _ => P) : Couples P (l.forM f) (l.forM g) fun _ _ => P :=
  forM₂ (forall₂_same.2 fun _ _ => rfl) fun a _ (hab : a = _) => hab ▸ h a

theorem mapM {V : γ → δ → Prop} {f : α → ExceptT ε (StateM σ) γ} {g : α → ExceptT ε (StateM τ) δ}
    (h : ∀ a, Couples P (f a) (g a) fun c d s t => V c d ∧ P s t) :
    Couples P (l.mapM f) (l.mapM g) fun cs ds s t => Forall₂ V cs ds ∧ P s t := by
  induction l with
  | nil => exact .pure fun _ _ hst => ⟨.nil, hst⟩
  | cons a l ih =>
    rw [mapM_cons, mapM_cons]
    intro s t cs ds s' t' hst hx hy
    obtain ⟨c, s₁, hc, hx⟩ := run_bind_ok hx
    obtain ⟨cs', s₂, hcs, hx⟩ := run_bind_ok hx
    obtain ⟨d, t₁, hd, hy⟩ := run_bind_ok hy
    obtain ⟨ds', t₂, hds, hy⟩ := run_bind_ok hy
    cases hx
    cases hy
    obtain ⟨hV, hst₁⟩ := h a s t c d s₁ t₁ hst hc hd
    obtain ⟨hVs, hst₂⟩ := ih s₁ t₁ cs' ds' _ _ hst₁ hcs hds
    exact ⟨.cons hV hVs, hst₂⟩

end Couples

end

end StyleBlocks
