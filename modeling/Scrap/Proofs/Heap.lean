import Scrap.Heap
import Scrap.Proofs.Term.Parts

/-! # Heaps

What the operations leave, what can be reached, and what it means that a heap has only grown. -/

namespace Scrap.Heap

variable {env : Env} {g : Heap}

theorem envOf_setEnv {e : Nat} (he : e < g.envs.size) (env : Env) (e' : Nat) :
    (g.setEnv e env).envOf e' = if e' = e then env else g.envOf e' := by
  show (g.envs.setIfInBounds e env).getD e' [] = _
  by_cases hee : e' = e
  · subst hee
    simp [Array.getD_eq_getD_getElem?, he]
  · rw [if_neg hee, Array.getD_eq_getD_getElem?, Array.getElem?_setIfInBounds_ne (Ne.symm hee)]
    simp [Heap.envOf, Array.getD_eq_getD_getElem?]

theorem size_setEnv (g : Heap) (e : Nat) (env : Env) : (g.setEnv e env).envs.size = g.envs.size :=
  Array.size_setIfInBounds

theorem envOf_push {e : Nat} :
    ({ g with envs := g.envs.push env } : Heap).envOf e = if e = g.envs.size then env else g.envOf e := by
  show (g.envs.push env).getD e [] = _
  rw [Array.getD_eq_getD_getElem?, Array.getElem?_push]
  split
  · rfl
  · simp [Heap.envOf, Array.getD_eq_getD_getElem?]

section Envs
variable {e j : Nat} {p : String × Term}

theorem mem_envOf_push (hp : p ∈ ({ g with envs := g.envs.push env } : Heap).envOf j) : p ∈ env ∨ p ∈ g.envOf j := by
  rw [envOf_push] at hp
  split at hp
  · exact .inl hp
  · exact .inr hp

theorem mem_envOf_setEnv (hp : p ∈ (g.setEnv e env).envOf j) : p ∈ env ∨ p ∈ g.envOf j := by
  by_cases he : e < g.envs.size
  · rw [envOf_setEnv he] at hp
    split at hp
    · exact .inl hp
    · exact .inr hp
  · rw [setEnv, Array.setIfInBounds_eq_of_size_le (Nat.not_lt.mp he)] at hp
    exact .inr hp

theorem envOf_of_le (he : g.envs.size ≤ e) : g.envOf e = [] := by
  rw [envOf, Array.getD_eq_getD_getElem?, Array.getElem?_eq_none he]
  rfl

end Envs

theorem resolve_tie (g : Heap) (i j : Nat) (t : Term) :
    (g.tie j t).resolve (.link i) = if i = j then t else g.resolve (.link i) := by
  show (List.lookup i ((j, t) :: g.knots)).getD (.link i) = _
  by_cases hij : i = j
  · subst hij
    rw [if_pos rfl, List.lookup_cons_self]
    rfl
  · have hb : (i == j) = false := by simpa using hij
    rw [if_neg hij, List.lookup_cons, hb]
    rfl

theorem resolve_unknown {i : Nat} (hk : ∀ p ∈ g.knots, p.1 ≠ i) : g.resolve (.link i) = .link i := by
  show (List.lookup i g.knots).getD (.link i) = _
  have hnone : List.lookup i g.knots = none := by
    rw [List.lookup_eq_none_iff]
    intro p hp
    simpa using fun hip => hk p hp hip.symm
  rw [hnone]
  rfl

/-- What can be reached from a term through its parts, through links and through environments of closures. -/
inductive Reaches (h : Heap) (root : Term) : Term → Prop
  | root : Reaches h root root
  | part : Reaches h root t → u ∈ t.parts → Reaches h root u
  | link : Reaches h root (.link i) → Reaches h root (h.resolve (.link i))
  | value : Reaches h root (.closure e c) → p ∈ h.envOf e → Reaches h root p.2

/-- Everything in the first heap is in the second as it was. -/
structure Later (g g' : Heap) : Prop where
  next : g.next ≤ g'.next
  size : g.envs.size ≤ g'.envs.size
  envs : ∀ e, e < g.envs.size → g'.envOf e = g.envOf e
  knots : ∀ i, i < g.next → g'.resolve (.link i) = g.resolve (.link i)

theorem Later.refl (g : Heap) : Later g g := ⟨Nat.le_refl _, Nat.le_refl _, fun _ _ => rfl, fun _ _ => rfl⟩

theorem Later.trans {g1 g2 : Heap} (h1 : Later g g1) (h2 : Later g1 g2) : Later g g2 where
  next := Nat.le_trans h1.next h2.next
  size := Nat.le_trans h1.size h2.size
  envs e he := (h2.envs e (Nat.lt_of_lt_of_le he h1.size)).trans (h1.envs e he)
  knots i hi := (h2.knots i (Nat.lt_of_lt_of_le hi h1.next)).trans (h1.knots i hi)

end Scrap.Heap
