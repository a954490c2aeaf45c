import Scrap.Term.Basic

/-! # Identity of terms

Closures are one if they have one environment, other terms if they have one identity. -/

namespace Scrap.Term

def isClosure : Term → Bool
  | .closure _ _ => true
  | _ => false

theorem same_eq (a b : Term) : a.same b = if a.isClosure && b.isClosure then decide
    (a.id = b.id) else !a.isClosure && !b.isClosure && decide (a.id = b.id) && decide (a.id ≠ 0) := by
  have not_closure : ∀ t : Term, (∀ e c, t ≠ .closure e c) → t.isClosure = false := by
    intro t h
    cases t <;> first | rfl | exact absurd rfl (h _ _)
  unfold same
  split
  · rfl
  · simp [isClosure]
  · simp [isClosure]
  · rename_i ha hb _
    simp [not_closure a ha, not_closure b hb]

theorem same_comm (a b : Term) : a.same b = b.same a := by
  rw [Bool.eq_iff_iff, same_eq, same_eq]
  cases a.isClosure <;> cases b.isClosure <;> simp <;> omega

end Scrap.Term
