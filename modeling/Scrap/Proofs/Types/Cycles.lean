import Scrap.Proofs.Types.Calls

/-! # Cycles that the occurs check does not see

The occurs check does not look into what variables are bound to. A run leaves a store without cycles exactly if it
binds no variable to a type that leads back to it; in such a store the text of every type, its free variables and its
copies can be found. -/

namespace Scrap

variable {i : Nat} {u : Ty} {s t : TypeStore}

namespace TypeStore

theorem mentions_setBound (hi : i < s.vars.size) {j k : Nat} (h : (s.setBound i u).Mentions j k) :
    (j = i ∧ k ∈ u.vars) ∨ s.Mentions j k := by
  obtain ⟨v, hv, hk⟩ := h
  rw [bound?_setBound hi] at hv
  split at hv
  · cases hv
    exact .inl ⟨‹_›, hk⟩
  · exact .inr ⟨v, hv, hk⟩

theorem nameOf_setBound (s : TypeStore) (i j : Nat) (u : Ty) : (s.setBound i u).nameOf j = s.nameOf j := by
  by_cases hj : j < s.vars.size
  · by_cases hij : i = j <;> simp [nameOf, setBound, Array.getD, hj, Array.getElem_modify, hij]
  · simp [nameOf, setBound, Array.getD, hj]

theorem Settled.setBound (hs : s.Settled) (hi : i < s.vars.size) (h : s.bound? i = none) (hu : s.Scopes u)
    (hreach : i ∉ s.reach u) : (s.setBound i u).Settled := by
  have hext := setBound_extends (t := u) hi h
  refine ⟨fun j v hj => ?_, ?_⟩
  · rw [bound?_setBound hi] at hj
    split at hj
    · cases hj
      exact hext.scopes hu
    · exact hext.scopes (hs.closed j v hj)
  · -- Variables that lead to `i` are ranked above all others, since only they can lead into `u` now.
    classical
    have hdown : ∀ j k, s.Mentions j k →
        (reached s.Mentions s.vars.size k).card < (reached s.Mentions s.vars.size j).card := fun j k hjk => by
      obtain ⟨v, hv, hk⟩ := hjk
      exact Finset.card_lt_card (reached_ssubset ⟨v, hv, hk⟩ (hs.closed j v hv k hk) (hs.acyclic k))
    refine not_transGen_of_rank (fun j => (if Relation.ReflTransGen s.Mentions j i then s.vars.size + 1 else 0) +
      (reached s.Mentions s.vars.size j).card) fun j k hjk => ?_
    rcases mentions_setBound hi hjk with ⟨rfl, hk⟩ | hjk
    · have hki : ¬ Relation.ReflTransGen s.Mentions k j := fun hki => hreach (mem_reach.mpr ⟨hi, k, hk, hki⟩)
      have hle := reached_card_le s.Mentions s.vars.size k
      rw [if_neg hki, if_pos .refl]
      omega
    · have hlt := hdown j k hjk
      by_cases hki : Relation.ReflTransGen s.Mentions k i
      · rw [if_pos hki, if_pos (.head hjk hki)]
        omega
      · rw [if_neg hki]
        omega

theorem withFresh_adds (s : TypeStore) (name : String) : s.Adds [name] (s.withFresh name) := by simp [Adds, withFresh]

theorem Settled.withFresh (hs : s.Settled) (name : String) : (s.withFresh name).Settled :=
  (s.withFresh_adds name).settled hs

theorem cyclic_setBound (hi : i < s.vars.size) (h : s.bound? i = none) (hreach : i ∈ s.reach u) :
    ¬ (s.setBound i u).Acyclic := by
  obtain ⟨-, j, hj, hji⟩ := mem_reach.mp hreach
  have hkept : ∀ k l, s.Mentions k l → (s.setBound i u).Mentions k l := by
    rintro k l ⟨v, hv, hl⟩
    exact ⟨v, (setBound_extends hi h).bound k v hv, hl⟩
  have hfirst : (s.setBound i u).Mentions i j := ⟨u, by rw [bound?_setBound hi, if_pos rfl], hj⟩
  exact fun hacyc => hacyc i (.head' hfirst (Relation.ReflTransGen.mono hkept _ _ hji))

theorem Extends.acyclic (h : t.Extends s) (ht : t.Acyclic) : s.Acyclic := by
  refine fun i hi => ht i (Relation.TransGen.mono ?_ i i hi)
  rintro j k ⟨v, hv, hk⟩
  exact ⟨v, h.bound j v hv, hk⟩

end TypeStore

namespace TypeM
open TypeStore

/-- The call binds a variable to a type that leads to it, and the occurs check does not see that. -/
def ClosesCycle (s : TypeStore) (a b : Ty) : Prop :=
  ∃ i t, binds? a b = some (i, t) ∧ i ∈ s.reach t ∧ s.occurs (.var i) t = .ok false

section Cycles
variable {a b : Ty}

theorem unifyFound_of_binds (h : binds? a b = some (i, u)) (f : Ty → Ty → TypeM Unit) :
    unifyFound f a b = bindVar (.var i) u := by
  rcases binds?_eq_some h with ⟨rfl, rfl⟩ | ⟨rfl, rfl⟩
  · rfl
  · cases a with
    | var j =>
      cases h
      rfl
    | con | row | emptyRow | bare => rfl

theorem Evolves.settled {Risk : CallSet} {C : Finset Nat} (h : Evolves Risk C s t) (hs : s.Settled)
    (hC : s.Encloses C) (hrisk : ∀ s a b, ClosesCycle s a b → Risk s a b) : t.Settled := by
  induction h with
  | refl => exact hs
  | fresh _ ih => exact ih.withFresh _
  | @bind t a b u i h ha hb hbinds hno hi hu hocc ih =>
    have hframe := h.frame hs.chained hC
    refine ih.setBound (hframe.encloses.lt i hi) (binds?_roots ih.chained hbinds ha hb).1 (hframe.encloses.scopes hu) ?_
    exact fun hreach => hno (hrisk t a b ⟨i, u, hbinds, hreach, hocc⟩)

/-- A run that is stopped where a cycle would be closed comes to the same, unless the whole run leaves a cycle. -/
theorem matches_unless_cyclic (instead : TypeM Unit) (n : Nat) :
    Matches (fun o => ¬ o.2.Acyclic) (unifyExcept ClosesCycle instead n) (unifyWithin n) := by
  have hlasts : Lasts fun o => ¬ o.2.Acyclic := fun s t _ hc hext ht => hc (hext.acyclic ht)
  refine matches_of_bad hlasts (fun n a b s hs ha hb hrisk => ?_) instead n
  obtain ⟨i, u, hbinds, hreach, hocc⟩ := hrisk
  have hroot : ∀ u, s.find (s.find u) = s.find u := hs.find_find hs (Extends.refl s)
  have hi := (binds?_roots hs hbinds (hroot a) (hroot b)).1
  rcases bindVar_outcome hi u with ⟨-, hout⟩ | ⟨hno, -⟩
  · rw [outcome_unifyWithin, unifyFound_of_binds hbinds, hout]
    exact cyclic_setBound (mem_reach.mp hreach).1 hi hreach
  · exact absurd hocc hno

/-- A run leaves no cycle if and only if it closes none. -/
theorem acyclic_iff_avoids (hs : s.Settled) (ha : s.Scopes a) (hb : s.Scopes b) (n : Nat) :
    (outcome (unifyWithin n a b) s).2.Acyclic ↔ Avoids ClosesCycle n a b s := by
  constructor
  · exact fun hacyc instead => (matches_unless_cyclic instead n a b s hs.chained ha hb).resolve_right
      (not_not_intro hacyc)
  · intro havoids
    rw [← havoids (throw .outOfFuel)]
    have hsteps := unifyExcept_steps ClosesCycle .outOfFuel n a b s _ hs.chained hs.closed.encloses ha.among hb.among
    exact (hsteps.settled hs hs.closed.encloses fun _ _ _ h => h).acyclic

end Cycles

/-- **Where the occurs check keeps types finite.** From a store without cycles, unification, to any depth and whether it
returns or fails, leaves a store without cycles if and only if it makes no call that binds a variable to a type which
leads to it past the occurs check. In every store that it leaves, chains of variables end; and if there are no cycles,
the text of every type, its free variables, its copies and its renaming to letters do not run out of fuel. -/
theorem unify_acyclic_iff {n : Nat} {a b : Ty} {s s' : TypeStore} {r : Except TypingError Unit} (hs : s.Settled)
    (ha : s.Scopes a) (hb : s.Scopes b) (h : outcome (unifyWithin n a b) s = (r, s')) :
    (s'.Acyclic ↔ Avoids ClosesCycle n a b s) ∧ (∀ t i, s'.find t = .var i → s'.bound? i = none) ∧
      (s'.Acyclic → ∀ t, s'.text t ≠ .error .outOfFuel ∧ s'.free t ≠ .error .outOfFuel ∧
        (∀ names, (outcome (subst t names) s').1 ≠ .error .outOfFuel) ∧
        (outcome (minimize t) s').1 ≠ .error .outOfFuel) := by
  obtain rfl : (outcome (unifyWithin n a b) s).2 = s' := by rw [h]
  have hframe := (unifyWithin_steps n).frame hs.chained ha hb
  refine ⟨acyclic_iff_avoids hs ha hb n, fun t i => hframe.chained.unbound_of_find, fun hacyc t => ?_⟩
  have hset : (outcome (unifyWithin n a b) s).2.Settled := ⟨hframe.chained.closed, hacyc⟩
  refine ⟨hset.text_ends t, hset.free_ends t, fun names => ?_, minimize_ends hset t⟩
  obtain ⟨r, hr, hne⟩ := subst_reads hset t names
  rwa [hr]

theorem twoRows_avoid : Avoids ClosesCycle 3 leftRow rightRow twoRows ∧
    twoRowsUnified.text leftRow ≠ .error .outOfFuel := by
  have hs : twoRows.Settled := settled_of_forward (by decide)
  have hs' : twoRowsUnified.Settled := settled_of_forward (by decide)
  have h := unify_acyclic_iff hs (a := leftRow) (b := rightRow) (by unfold Scopes; decide) (by unfold Scopes; decide)
    twoRows_unify
  exact ⟨h.1.mp hs'.acyclic, (h.2.2 hs'.acyclic leftRow).1⟩

/-- A variable `a` that is bound to lists of `b`, and `b`. -/
def crossed : TypeStore := { vars := #[⟨"a", some (.list (.var 1))⟩, ⟨"b", none⟩] }

/-- Unifying `b` with lists of `a` returns and leaves two variables that stand for lists of each other. -/
theorem crossed_unify_cyclic : crossed.Settled ∧ crossed.Scopes (.var 1) ∧ crossed.Scopes (.list (.var 0)) ∧
    ∀ n, ∃ s', outcome (unifyWithin (n + 1) (.var 1) (.list (.var 0))) crossed = (.ok (), s') ∧ ¬ s'.Acyclic := by
  have hreach : 1 ∈ crossed.reach (.list (.var 0)) :=
    mem_reach.mpr ⟨by decide, 0, by decide, .single ⟨.list (.var 1), rfl, by decide⟩⟩
  refine ⟨settled_of_forward (by decide), by unfold Scopes; decide, by unfold Scopes; decide, fun n => ?_⟩
  refine ⟨crossed.setBound 1 (.list (.var 0)), ?_, cyclic_setBound (by decide) rfl hreach⟩
  rcases bindVar_outcome (s := crossed) (i := 1) rfl (.list (.var 0)) with ⟨-, hout⟩ | ⟨hocc, -⟩
  · rw [outcome_unifyWithin]
    exact hout
  · exact absurd rfl hocc

end TypeM

end Scrap
