import Mathlib.Order.Filter.AtTopBot.Basic
import Scrap.Proofs.Eval.Congruence

/-! # More depth

A term that is evaluated to some depth without exhausting it comes to the same at any greater depth. -/

namespace Scrap.Eval

open Filter

/-- Unless the first computation runs out of depth, the second one comes to the same. -/
def Deepens {α : Type} (m m' : EvalM α) : Prop :=
  ∀ s, (outcome m s).1 = .error .outOfFuel ∨ outcome m' s = outcome m s

theorem Deepens.refl {α : Type} (m : EvalM α) : Deepens m m := fun _ => .inr rfl

theorem Deepens.trans {α : Type} {m m1 m2 : EvalM α} (h1 : Deepens m m1) (h2 : Deepens m1 m2) : Deepens m m2 := by
  intro s
  rcases h1 s with h | h
  · exact .inl h
  · have := h2 s
    rwa [h] at this

theorem Deepens.bind {α β : Type} {m m' : EvalM α} {f f' : α → EvalM β} (hm : Deepens m m')
    {ok : α → Prop} (hok : Yields ok m) (hf : ∀ a, ok a → Deepens (f a) (f' a)) : Deepens (m >>= f) (m' >>= f') := by
  intro s
  rcases hm s with h | h
  · exact .inl (bind_error h)
  · rw [outcome_bind, outcome_bind, h]
    rcases ho : outcome m s with ⟨e | a, t⟩
    · exact .inr rfl
    · exact hf a (hok s a (by rw [ho])) t

def deepening (rules : Rules) : Uniform rules .one where
  Rel _ ok m m' := Deepens m m' ∧ Yields (ok ()) m
  later hm _ := hm
  mono hm h := ⟨hm.1, fun s a ha => h () a trivial (hm.2 s a ha)⟩
  bind hm hf := ⟨hm.1.bind hm.2 fun a ha => (hf () a trivial ha).1, hm.2.bind fun a ha => (hf () a trivial ha).2⟩
  pure h := ⟨.refl _, .pure (h () trivial)⟩
  throw e := ⟨.refl _, .throw e⟩
  heapNow := ⟨.refl _, fun _ _ _ => .any _⟩
  fresh := ⟨.refl _, fun _ _ _ => trivial⟩
  textOf _ := ⟨.refl _, fun _ _ _ => trivial⟩
  note _ := ⟨.refl _, fun _ _ _ => trivial⟩
  kept := @LeafWorlds.kept_one rules
  closure _ _ := ⟨.refl _, fun _ _ _ => .any _⟩
  naming _ _ := ⟨.refl _, fun _ _ _ => trivial⟩
  native _ _ _ := ⟨.refl _, fun _ _ _ => .any _⟩
  quote _ := ⟨.refl _, fun _ _ _ => .any _⟩

theorem runs_deepen (rules : Rules) (n : Nat) :
    (deepening rules).congruence.Runs (evalBy rules n) (evalBy rules (n + 1)) := by
  induction n with
  | zero =>
    exact ⟨fun _ => ⟨fun _ => .inl rfl, .throw _⟩, fun _ _ _ _ _ _ => ⟨fun _ => .inl rfl, fun _ _ hb => by cases hb⟩⟩
  | succ n ih => exact ih.succ

theorem evalBy_deepens (rules : Rules) {n k : Nat} (h : n ≤ k) (env : Env) (t : Term) :
    Deepens (evalBy rules n env t) (evalBy rules k env t) := by
  induction h with
  | refl => exact .refl _
  | step _ ih => exact ih.trans ((runs_deepen rules _).value (w := ()) ⟨rfl, fun _ _ => .any _, .any _⟩).1

/-- From some depth on a term has one and the same value, or it fails at every depth. -/
theorem eval_returns_or_fails (env : Env) (t : Term) (s : Session) :
    (∃ value s', ∀ᶠ n in atTop, outcome (eval n env t) s = (.ok value, s')) ∨
      ∀ n, ∃ x s', outcome (eval n env t) s = (.error x, s') := by
  by_cases h : ∃ n value s', outcome (eval n env t) s = (.ok value, s')
  · obtain ⟨n, value, s', hn⟩ := h
    refine .inl ⟨value, s', eventually_atTop.mpr ⟨n, fun k hk => ?_⟩⟩
    rcases evalBy_deepens .standard hk env t s with hfail | heq
    · rw [show outcome (evalBy .standard n env t) s = _ from hn] at hfail
      cases hfail
    · exact heq.trans hn
  · refine .inr fun n => ?_
    rcases hn : outcome (eval n env t) s with ⟨x | value, s'⟩
    · exact ⟨x, s', rfl⟩
    · exact absurd ⟨n, value, s', hn⟩ h

end Scrap.Eval
