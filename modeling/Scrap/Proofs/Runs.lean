import Scrap.Eval.Basic

/-! # Runs side by side

Two computations are compared from a pair of states. The second keeps pace with the first if it returns whenever the
first does, with related results and states, and fails as the first does unless the failure is excused. -/

namespace Scrap

section Outcomes
variable {ε σ α β : Type} {m : ExceptT ε (StateM σ) α}

/-- What a computation comes to from a state: its result or failure, and the state it leaves. -/
abbrev outcome (m : ExceptT ε (StateM σ) α) (s : σ) : Except ε α × σ := m.run.run s

theorem outcome_bind (m : ExceptT ε (StateM σ) α) (f : α → ExceptT ε (StateM σ) β) (s : σ) :
    outcome (m >>= f) s =
      match outcome m s with
      | (.ok a, t) => outcome (f a) t
      | (.error e, t) => (.error e, t) := by
  show (match m s with
    | (r, t) => (ExceptT.bindCont f r) t) = _
  rcases h : m s with ⟨r | r, t⟩ <;> simp only [outcome, ExceptT.run, StateT.run, h] <;> rfl

variable {f : α → ExceptT ε (StateM σ) β}

theorem bind_ok {s t : σ} {a : α}
    (h : outcome m s = (.ok a, t)) : outcome (m >>= f) s = outcome (f a) t := by
  rw [outcome_bind, h]

theorem bind_error {s : σ} {e : ε}
    (h : (outcome m s).1 = .error e) : (outcome (m >>= f) s).1 = .error e := by
  rw [outcome_bind]
  rcases hm : outcome m s with ⟨r | r, t⟩ <;> rw [hm] at h <;> cases h
  rfl

theorem bind_returns {s u : σ} {b : β}
    (h : outcome (m >>= f) s = (.ok b, u)) : ∃ a t, outcome m s = (.ok a, t) ∧ outcome (f a) t = (.ok b, u) := by
  rw [outcome_bind] at h
  rcases hm : outcome m s with ⟨r | r, t⟩ <;> rw [hm] at h
  · cases h
  · exact ⟨r, t, rfl, h⟩

theorem outcome_mapM {g : α → β} {l : List α} {s : σ}
    (h : ∀ a ∈ l, outcome (f a) s = (.ok (g a), s)) : outcome (l.mapM f) s = (.ok (l.map g), s) := by
  induction l with
  | nil => rfl
  | cons a l ih =>
    rw [List.mapM_cons, bind_ok (h a (.head _)), bind_ok (ih fun b hb => h b (.tail _ hb))]
    rfl

end Outcomes

section Twins
variable {ε σ τ α α' β β' : Type} {excused : ε → Prop}

/-- The second computation keeps pace with the first. -/
def Twin (excused : ε → Prop) (post : α → α' → σ → τ → Prop) (m : ExceptT ε (StateM σ) α)
    (m' : ExceptT ε (StateM τ) α') (s : σ) (s' : τ) : Prop :=
  match outcome m s with
  | (.ok a, t) => ∃ a' t', outcome m' s' = (.ok a', t') ∧ post a a' t t'
  | (.error e, _) => excused e ∨ (outcome m' s').1 = .error e

namespace Twin
variable {m : ExceptT ε (StateM σ) α} {m' : ExceptT ε (StateM τ) α'} {s : σ} {s' : τ} {post : α → α' → σ → τ → Prop}

theorem returns (h : Twin excused post m m' s s') {a : α} {t : σ} (hm : outcome m s = (.ok a, t)) :
    ∃ a' t', outcome m' s' = (.ok a', t') ∧ post a a' t t' := by
  unfold Twin at h
  rw [hm] at h
  exact h

theorem fails (h : Twin excused post m m' s s') {e : ε} {t : σ} (hm : outcome m s = (.error e, t)) :
    excused e ∨ (outcome m' s').1 = .error e := by
  unfold Twin at h
  rw [hm] at h
  exact h

theorem mono {post' : α → α' → σ → τ → Prop} (h : Twin excused post m m' s s')
    (hp : ∀ a a' t t', post a a' t t' → post' a a' t t') : Twin excused post' m m' s s' := by
  unfold Twin at h ⊢
  split at h
  · obtain ⟨a', t', hm', h⟩ := h
    exact ⟨a', t', hm', hp _ _ _ _ h⟩
  · exact h

theorem bind {f : α → ExceptT ε (StateM σ) β} {f' : α' → ExceptT ε (StateM τ) β'} {post' : β → β' → σ → τ → Prop}
    (h : Twin excused post m m' s s') (hf : ∀ a a' t t', post a a' t t' → Twin excused post' (f a) (f' a') t t') :
    Twin excused post' (m >>= f) (m' >>= f') s s' := by
  rcases hm : outcome m s with ⟨e | a, t⟩
  · have hb : outcome (m >>= f) s = (.error e, t) := by rw [outcome_bind, hm]
    unfold Twin
    rw [hb]
    exact (h.fails hm).imp_right bind_error
  · obtain ⟨a', t', hm', hp⟩ := h.returns hm
    have hb := hf a a' t t' hp
    unfold Twin at hb ⊢
    rw [bind_ok hm, bind_ok hm']
    exact hb

theorem pure {a : α} {a' : α'} (h : post a a' s s') :
    Twin excused post (Pure.pure a : ExceptT ε (StateM σ) α) (Pure.pure a' : ExceptT ε (StateM τ) α') s s' :=
  ⟨a', s', rfl, h⟩

theorem throw (e : ε) : Twin excused post (MonadExcept.throw e : ExceptT ε (StateM σ) α)
    (MonadExcept.throw e : ExceptT ε (StateM τ) α') s s' :=
  .inr rfl

theorem throw_excused {e : ε} (h : excused e) :
    Twin excused post (MonadExcept.throw e : ExceptT ε (StateM σ) α) m' s s' :=
  .inl h

end Twin

end Twins

/-- Pairs of states that belong together, and what is known about them, which grows as both go on. -/
structure Pairing (σ τ : Type) where
  Known : Type
  le : Known → Known → Prop
  refl : ∀ w, le w w
  trans : ∀ {u v w}, le u v → le v w → le u w
  Meets : Known → σ → τ → Prop

section Paces
variable {ε σ τ α α' β β' : Type} {P : Pairing σ τ} {excused : ε → Prop} {w : P.Known}

/-- From states that belong together, with `w` known of them, the second computation keeps pace with the first, and the
states that they leave belong together too. -/
def Pace (P : Pairing σ τ) (excused : ε → Prop) (w : P.Known) (post : α → α' → P.Known → Prop)
    (m : ExceptT ε (StateM σ) α) (m' : ExceptT ε (StateM τ) α') : Prop :=
  ∀ v s s', P.le w v → P.Meets v s s' →
    Twin excused (fun a a' t t' => ∃ u, P.le v u ∧ P.Meets u t t' ∧ post a a' u) m m' s s'

namespace Pace
variable {m : ExceptT ε (StateM σ) α} {m' : ExceptT ε (StateM τ) α'} {post : α → α' → P.Known → Prop}

theorem mono {post' : α → α' → P.Known → Prop} (h : Pace P excused w post m m')
    (hp : ∀ a a' v, P.le w v → post a a' v → post' a a' v) : Pace P excused w post' m m' :=
  fun v s s' hv hm => (h v s s' hv hm).mono fun a a' _ _ ⟨u, hu, hmt, hpost⟩ =>
    ⟨u, hu, hmt, hp a a' u (P.trans hv hu) hpost⟩

theorem later {v : P.Known} (h : Pace P excused w post m m') (hv : P.le w v) : Pace P excused v post m m' :=
  fun u s s' hu hm => h u s s' (P.trans hv hu) hm

theorem bind {f : α → ExceptT ε (StateM σ) β} {f' : α' → ExceptT ε (StateM τ) β'} {post' : β → β' → P.Known → Prop}
    (h : Pace P excused w post m m') (hf : ∀ a a' v, P.le w v → post a a' v → Pace P excused v post' (f a) (f' a')) :
    Pace P excused w post' (m >>= f) (m' >>= f') := by
  intro v s s' hv hm
  refine (h v s s' hv hm).bind fun a a' t t' ⟨u, hu, hmt, hpost⟩ => ?_
  exact (hf a a' u (P.trans hv hu) hpost u t t' (P.refl u) hmt).mono
    fun b b' _ _ ⟨x, hx, hmx, hpost'⟩ => ⟨x, P.trans hu hx, hmx, hpost'⟩

theorem pure {a : α} {a' : α'} (h : ∀ v, P.le w v → post a a' v) :
    Pace P excused w post (Pure.pure a : ExceptT ε (StateM σ) α) (Pure.pure a' : ExceptT ε (StateM τ) α') :=
  fun v _ _ hv hm => Twin.pure ⟨v, P.refl v, hm, h v hv⟩

theorem throw (e : ε) : Pace P excused w post (MonadExcept.throw e : ExceptT ε (StateM σ) α)
    (MonadExcept.throw e : ExceptT ε (StateM τ) α') :=
  fun _ _ _ _ _ => Twin.throw e

theorem throw_excused {e : ε} (h : excused e) :
    Pace P excused w post (MonadExcept.throw e : ExceptT ε (StateM σ) α) m' :=
  fun _ _ _ _ _ => Twin.throw_excused h

theorem get {f : σ → ExceptT ε (StateM σ) α} {f' : τ → ExceptT ε (StateM τ) α'}
    (hf : ∀ v s s', P.le w v → P.Meets v s s' → Pace P excused v post (f s) (f' s')) :
    Pace P excused w post (MonadState.get >>= f) (MonadState.get >>= f') :=
  fun v s s' hv hm => hf v s s' hv hm v s s' (P.refl v) hm

end Pace

end Paces

end Scrap
