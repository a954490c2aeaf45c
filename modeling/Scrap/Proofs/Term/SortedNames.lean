import Mathlib.Data.List.Nodup
import Mathlib.Data.String.Basic
import Scrap.Term.FreeVars

/-! # Names in order

A list of names in their order and once each depends only on which names there are. -/

namespace Scrap.Term

open List

theorem mem_sortedNames {x : String} {names : List String} : x ∈ sortedNames names ↔ x ∈ names := by
  rw [sortedNames, mem_mergeSort, mem_eraseDups]

theorem nodup_eraseDups (xs : List String) : xs.eraseDups.Nodup := by
  induction hlength : xs.length using Nat.strongRecOn generalizing xs with
  | ind n ih =>
    cases xs with
    | nil => exact nodup_nil
    | cons x xs =>
      rw [eraseDups_cons, nodup_cons]
      have hshorter := length_filter_le (fun y => !y == x) xs
      refine ⟨by simp [mem_eraseDups], ih _ ?_ _ rfl⟩
      rw [← hlength, length_cons]
      omega

theorem nodup_sortedNames (names : List String) : (sortedNames names).Nodup :=
  (mergeSort_perm _ _).nodup_iff.mpr (nodup_eraseDups names)

theorem sortedNames_sorted (names : List String) : (sortedNames names).Pairwise (· ≤ ·) := by
  have h : (sortedNames names).Pairwise fun a b => decide (a ≤ b) = true :=
    pairwise_mergeSort (fun a b c hab hbc => by simpa using le_trans (of_decide_eq_true hab) (of_decide_eq_true hbc))
      (fun a b => by simpa using le_total a b) names.eraseDups
  exact h.imp fun hab => of_decide_eq_true hab

/-- The only list that has given members in order and once each. -/
theorem sortedNames_eq {names l : List String} (hl : l.Pairwise (· < ·)) (h : ∀ x, x ∈ l ↔ x ∈ names) :
    sortedNames names = l := by
  have hnodup : l.Nodup := hl.imp fun hab => ne_of_lt hab
  have hperm : (sortedNames names).Perm l :=
    (perm_ext_iff_of_nodup (nodup_sortedNames names) hnodup).mpr fun x => by rw [mem_sortedNames, h]
  exact hperm.eq_of_pairwise (fun _ _ _ _ hab hba => le_antisymm hab hba) (sortedNames_sorted names)
    (hl.imp fun hab => le_of_lt hab)

end Scrap.Term
