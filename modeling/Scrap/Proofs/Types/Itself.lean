import Scrap.Proofs.Types.Cycles

/-! # A type and itself

The occurs check comes before the question whether both sides are one variable, and a variable occurs in itself. So a
type unifies with itself exactly if it has no variables. -/

namespace Scrap

open List Dict

variable {s : TypeStore} {u : Ty}

namespace Resolved

mutual

def size : Resolved → Nat
  | .con _ args => 1 + sizeAll args
  | .row fields _ => 1 + sizeFields fields
  | .var _ | .emptyRow | .bare | .cut => 1

def sizeAll : List Resolved → Nat
  | [] => 0
  | r :: rs => size r + sizeAll rs

def sizeFields : List (String × Resolved) → Nat
  | [] => 0
  | (_, r) :: fs => size r + sizeFields fs

end

mutual

/-- Whether a tree has no variables and nothing whose form is not known. -/
def isGround : Resolved → Bool
  | .con _ args => areGround args
  | .row fields tail => fieldsGround fields && tail.isNone
  | .emptyRow => true
  | .var _ | .bare | .cut => false

def areGround : List Resolved → Bool
  | [] => true
  | r :: rs => isGround r && areGround rs

def fieldsGround : List (String × Resolved) → Bool
  | [] => true
  | (_, r) :: fs => isGround r && fieldsGround fs

end

end Resolved

namespace TypeM
open TypeStore

section Runs
variable {n : Nat} {f : Ty → Ty → TypeM Unit} {m k : TypeM Unit} {i : Nat} {fs : Dict Ty}

def Answers (yes : Bool) (m : TypeM Unit) (s : TypeStore) : Prop :=
  if yes then outcome m s = (.ok (), s) else ∃ e, outcome m s = (.error e, s)

theorem Answers.bind {yes yes' : Bool} (h : Answers yes m s) (hk : Answers yes' k s) :
    Answers (yes && yes') (do m; k) s := by
  cases yes with
  | false =>
    obtain ⟨e', he'⟩ := h
    exact ⟨e', by rw [outcome_bind, he']⟩
  | true =>
    have hm : outcome m s = (.ok (), s) := h
    cases yes' with
    | false =>
      obtain ⟨e', he'⟩ := hk
      exact ⟨e', by rw [bind_ok hm, he']⟩
    | true => exact (bind_ok hm).trans hk

end Runs

end TypeM

end Scrap
