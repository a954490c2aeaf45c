import Scrap.Proofs.Dict
import Scrap.Types.Unify
import Mathlib.Algebra.BigOperators.Fin
import Mathlib.Algebra.Order.BigOperators.Group.Finset
import Mathlib.Logic.Relation

/-! # Forwarding in stores of type variables

Where forwarding has no cycles, every walk along it ends within the fuel of `find` and `flatten`, so that both satisfy
equations in which no fuel appears. -/

namespace Scrap

open List

variable {fs : List (String × Ty)} {i j : Nat} {r : Nat → Nat → Prop} {u : Ty}

namespace Ty

mutual

/-- The variables of a type, outside of what they are bound to. -/
def vars : Ty → List Nat
  | .var i => [i]
  | .con _ args => varsAll args
  | .row fields rest => varsFields fields ++ vars rest
  | .emptyRow => []
  | .bare => []

def varsAll : List Ty → List Nat
  | [] => []
  | t :: ts => vars t ++ varsAll ts

def varsFields : List (String × Ty) → List Nat
  | [] => []
  | (_, t) :: fs => vars t ++ varsFields fs

end

theorem mem_varsAll {ts : List Ty} : i ∈ varsAll ts ↔ ∃ t ∈ ts, i ∈ t.vars := by
  rw [eq_flatMap (F := varsAll) rfl fun _ _ => rfl, mem_flatMap]

theorem mem_varsFields : i ∈ varsFields fs ↔ ∃ p ∈ fs, i ∈ p.2.vars := by
  rw [eq_flatMap (F := varsFields) rfl fun _ _ => rfl, mem_flatMap]

theorem size_pos (t : Ty) : 0 < t.size := by
  cases t <;> simp [size]

theorem size_le_sizeAll {ts : List Ty} {t : Ty} (h : t ∈ ts) : t.size ≤ sizeAll ts := by
  induction ts with
  | nil => simp at h
  | cons u ts ih =>
    rw [sizeAll]
    rcases mem_cons.mp h with rfl | h
    · omega
    · have := ih h
      omega

theorem size_le_sizeFields {p : String × Ty} (h : p ∈ fs) : p.2.size ≤ sizeFields fs := by
  induction fs with
  | nil => simp at h
  | cons q fs ih =>
    obtain ⟨k, u⟩ := q
    rw [sizeFields]
    rcases mem_cons.mp h with rfl | h
    · show u.size ≤ _
      omega
    · have := ih h
      omega

def parts : Ty → List Ty
  | .con _ args => args
  | .row fields rest => rest :: fields.map Prod.snd
  | _ => []

theorem size_lt_of_part {t : Ty} (h : u ∈ t.parts) : u.size < t.size := by
  cases t with
  | con name args =>
    have hu : u.size ≤ sizeAll args := size_le_sizeAll h
    rw [size]
    omega
  | row fields rest =>
    rw [size]
    rcases mem_cons.mp h with rfl | h
    · omega
    · obtain ⟨p, hp, rfl⟩ := mem_map.mp h
      have := size_le_sizeFields hp
      have := rest.size_pos
      omega
  | var | emptyRow | bare => simp [parts] at h

theorem vars_of_part {t : Ty} (h : u ∈ t.parts) (hi : i ∈ u.vars) : i ∈ t.vars := by
  cases t with
  | con name args => exact mem_varsAll.mpr ⟨u, h, hi⟩
  | row fields rest =>
    rw [vars, mem_append]
    rcases mem_cons.mp h with rfl | h
    · exact .inr hi
    · obtain ⟨p, hp, rfl⟩ := mem_map.mp h
      exact .inl (mem_varsFields.mpr ⟨p, hp, hi⟩)
  | var | emptyRow | bare => simp [parts] at h

def isVar : Ty → Bool
  | .var _ => true
  | _ => false

end Ty

namespace TypeStore

variable {n : Nat} {v : Ty} {P : Ty → Prop} {s : TypeStore}

/-! ### Stores without cycles -/

/-- All variables of a type are variables of the store. -/
def Scopes (s : TypeStore) (t : Ty) : Prop := ∀ i ∈ t.vars, i < s.vars.size

def Closed (s : TypeStore) : Prop := ∀ i t, s.bound? i = some t → s.Scopes t

/-- A variable is bound to a type in which another one stands. -/
def Mentions (s : TypeStore) (i j : Nat) : Prop := ∃ t, s.bound? i = some t ∧ j ∈ t.vars

def Forwards (s : TypeStore) (i j : Nat) : Prop := s.bound? i = some (.var j)

/-- No variable stands for a type that it occurs in. -/
def Acyclic (s : TypeStore) : Prop := ∀ i, ¬ Relation.TransGen s.Mentions i i

/-- No chain of variables runs in a circle: all that `find` needs. -/
structure Chained (s : TypeStore) : Prop where
  closed : s.Closed
  ends : ∀ i, ¬ Relation.TransGen s.Forwards i i

/-- The store holds finite types over its own variables. -/
structure Settled (s : TypeStore) : Prop where
  closed : s.Closed
  acyclic : s.Acyclic

/-- All variables and bindings are kept. -/
structure Extends (t s : TypeStore) : Prop where
  size : s.vars.size ≤ t.vars.size
  bound : ∀ i u, s.bound? i = some u → t.bound? i = some u

section Basics
variable {t : TypeStore}

theorem bound?_of_size_le (h : s.vars.size ≤ i) : s.bound? i = none := by
  have hd : s.vars.getD i default = default := by simp [Array.getD, Nat.not_lt.mpr h]
  rw [bound?, hd]
  rfl

theorem lt_size_of_bound (h : s.bound? i = some u) : i < s.vars.size := by
  by_contra hi
  rw [bound?_of_size_le (Nat.not_lt.mp hi)] at h
  cases h

theorem Forwards.mentions (h : s.Forwards i j) : s.Mentions i j := ⟨.var j, h, by simp [Ty.vars]⟩

theorem Settled.chained (h : s.Settled) : s.Chained :=
  ⟨h.closed, fun i hi => h.acyclic i (Relation.TransGen.mono (fun _ _ => Forwards.mentions) i i hi)⟩

theorem Scopes.part (h : s.Scopes u) (hv : v ∈ u.parts) : s.Scopes v :=
  fun i hi => h i (Ty.vars_of_part hv hi)

theorem Extends.refl (s : TypeStore) : s.Extends s := ⟨Nat.le_refl _, fun _ _ h => h⟩

theorem Extends.trans {r : TypeStore} (h : t.Extends s) (h' : s.Extends r) : t.Extends r :=
  ⟨h'.size.trans h.size, fun i u hi => h.bound i u (h'.bound i u hi)⟩

theorem Extends.scopes (h : t.Extends s) (hu : s.Scopes u) : t.Scopes u :=
  fun i hi => Nat.lt_of_lt_of_le (hu i hi) h.size

end Basics

/-! ### Ranks

Along a relation without cycles on finitely many variables, the number of variables that can still be reached
decreases. -/

section Rank
open Classical in
noncomputable def reached (r : Nat → Nat → Prop) (n i : Nat) : Finset Nat :=
  (Finset.range n).filter (Relation.TransGen r i)

theorem mem_reached : j ∈ reached r n i ↔ j < n ∧ Relation.TransGen r i j := by
  simp [reached]

theorem reached_card_le (r : Nat → Nat → Prop) (n i : Nat) : (reached r n i).card ≤ n := by
  classical
  exact (Finset.card_filter_le _ _).trans (Finset.card_range n).le

theorem reached_ssubset (hr : r i j) (hj : j < n) (hc : ¬ Relation.TransGen r j j) : reached r n j ⊂ reached r n i := by
  refine (Finset.ssubset_iff_of_subset fun k hk => ?_).mpr ⟨j, mem_reached.mpr ⟨hj, .single hr⟩, fun h => ?_⟩
  · obtain ⟨hk, hjk⟩ := mem_reached.mp hk
    exact mem_reached.mpr ⟨hk, .head hr hjk⟩
  · exact hc (mem_reached.mp h).2

theorem not_transGen_of_rank (rank : Nat → Nat) (h : ∀ i j, r i j → rank j < rank i) (i : Nat) :
    ¬ Relation.TransGen r i i := by
  have hlt : ∀ j, Relation.TransGen r i j → rank j < rank i := fun j hj => by
    induction hj with
    | single hj => exact h _ _ hj
    | tail _ hj ih => exact (h _ _ hj).trans ih
  exact fun hi => Nat.lt_irrefl _ (hlt i hi)

theorem settled_of_forward
    (h : ∀ i < s.vars.size, ∀ j ∈ ((s.bound? i).map Ty.vars).getD [], i < j ∧ j < s.vars.size) : s.Settled := by
  have hm : ∀ i u, s.bound? i = some u → ∀ j ∈ u.vars, i < j ∧ j < s.vars.size := fun i u hi j hj =>
    h i (lt_size_of_bound hi) j (by simpa [hi] using hj)
  refine ⟨fun i u hi j hj => (hm i u hi j hj).2, not_transGen_of_rank (fun i => s.vars.size - i) ?_⟩
  rintro i j ⟨u, hi, hj⟩
  have := hm i u hi j hj
  omega

end Rank

/-! ### Following chains of variables -/

section Find
variable {t : TypeStore}

noncomputable def steps (s : TypeStore) : Ty → Nat
  | .var i => (reached s.Forwards s.vars.size i).card
  | _ => 0

theorem steps_le (s : TypeStore) (u : Ty) : s.steps u ≤ s.vars.size := by
  cases u <;> simp [steps, reached_card_le]

theorem Chained.steps_lt (hs : s.Chained) (h : s.bound? i = some u) :
    s.steps u < s.steps (.var i) ∨ u.isVar = false := by
  cases u with
  | var j => exact .inl (Finset.card_lt_card (reached_ssubset h (hs.closed i _ h j (by simp [Ty.vars])) (hs.ends j)))
  | con | row | emptyRow | bare => exact .inr rfl

theorem findWithin_of_not_var (h : u.isVar = false) (n : Nat) : s.findWithin n u = u := by
  cases n <;> cases u <;> first | rfl | cases h

theorem find_of_not_var (h : u.isVar = false) : s.find u = u := findWithin_of_not_var h _

theorem findWithin_unbound (h : s.bound? i = none) (n : Nat) : s.findWithin n (.var i) = .var i := by
  cases n with
  | zero => rfl
  | succ n => simp [findWithin, h]

theorem find_unbound (h : s.bound? i = none) : s.find (.var i) = .var i := findWithin_unbound h _

theorem findWithin_bound (h : s.bound? i = some u) (n : Nat) : s.findWithin (n + 1) (.var i) = s.findWithin n u := by
  simp [findWithin, h]

theorem Chained.findWithin_succ (hs : s.Chained) (n : Nat) (u : Ty) (h : s.steps u < n) :
    s.findWithin (n + 1) u = s.findWithin n u := by
  induction n generalizing u with
  | zero => omega
  | succ n ih =>
    cases u with
    | var i =>
      cases hi : s.bound? i with
      | none => rw [findWithin_unbound hi, findWithin_unbound hi]
      | some v =>
        rw [findWithin_bound hi, findWithin_bound hi]
        rcases hs.steps_lt hi with hv | hv
        · exact ih v (by omega)
        · rw [findWithin_of_not_var hv, findWithin_of_not_var hv]
    | con | row | emptyRow | bare => rfl

theorem Chained.find_bound (hs : s.Chained) (h : s.bound? i = some u) : s.find (.var i) = s.find u := by
  rw [find, findWithin_bound h, find]
  rcases hs.steps_lt h with hu | hu
  · exact (hs.findWithin_succ _ u (hu.trans_le (s.steps_le _))).symm
  · rw [findWithin_of_not_var hu, findWithin_of_not_var hu]

theorem Chained.chain_induction (hs : s.Chained) (other : ∀ u, u.isVar = false → P u)
    (unbound : ∀ i, s.bound? i = none → P (.var i)) (bound : ∀ i u, s.bound? i = some u → P u → P (.var i)) (u : Ty) :
    P u := by
  induction hn : s.steps u using Nat.strong_induction_on generalizing u with
  | _ n ih =>
    cases u with
    | var i =>
      cases hi : s.bound? i with
      | none => exact unbound i hi
      | some v =>
        rcases hs.steps_lt hi with hv | hv
        · exact bound i v hi (ih _ (hn ▸ hv) v rfl)
        · exact bound i v hi (other v hv)
    | con | row | emptyRow | bare => exact other _ rfl

theorem Chained.unbound_of_find (hs : s.Chained) (h : s.find u = .var i) : s.bound? i = none := by
  induction u using hs.chain_induction with
  | other u hu =>
    rw [find_of_not_var hu] at h
    rw [h] at hu
    cases hu
  | unbound j hj =>
    rw [find_unbound hj] at h
    cases h
    exact hj
  | bound j v hj ih =>
    rw [hs.find_bound hj] at h
    exact ih h

theorem Chained.find_keeps (hs : s.Chained) (hP : ∀ i v, s.bound? i = some v → P (.var i) → P v)
    (h : P u) : P (s.find u) := by
  induction u using hs.chain_induction with
  | other u hu => rwa [find_of_not_var hu]
  | unbound i hi => rwa [find_unbound hi]
  | bound i v hi ih =>
    rw [hs.find_bound hi]
    exact ih (hP i v hi h)

theorem Chained.scopes_find (hs : s.Chained) (h : s.Scopes u) : s.Scopes (s.find u) :=
  hs.find_keeps (fun i v hi _ => hs.closed i v hi) h

theorem Chained.find_find (ht : t.Chained) (hs : s.Chained) (h : t.Extends s) (u : Ty) :
    t.find (s.find u) = t.find u := by
  induction u using hs.chain_induction with
  | other u hu => rw [find_of_not_var hu]
  | unbound i hi => rw [find_unbound hi]
  | bound i v hi ih => rw [hs.find_bound hi, ht.find_bound (h.bound i v hi), ih]

end Find

/-! ### How deep a type is

The nodes of a type and of everything that its variables stand for: no walk into the type is longer. -/

section Depth

def cost (s : TypeStore) (i : Nat) : Nat := 1 + ((s.bound? i).map Ty.size).getD 0

open Classical in
/-- The variables that a type leads to, its own among them. -/
noncomputable def reach (s : TypeStore) (u : Ty) : Finset Nat :=
  (Finset.range s.vars.size).filter fun j => ∃ i ∈ u.vars, Relation.ReflTransGen s.Mentions i j

theorem mem_reach : j ∈ s.reach u ↔ j < s.vars.size ∧ ∃ i ∈ u.vars, Relation.ReflTransGen s.Mentions i j := by
  simp [reach]

/-- The nodes of a type and of all that its variables lead to. -/
noncomputable def extent (s : TypeStore) (u : Ty) : Nat := u.size + ∑ i ∈ s.reach u, s.cost i

theorem extent_part_lt (h : v ∈ u.parts) : s.extent v < s.extent u := by
  have hsub : s.reach v ⊆ s.reach u := fun j hj => by
    obtain ⟨hj, i, hi, hij⟩ := mem_reach.mp hj
    exact mem_reach.mpr ⟨hj, i, Ty.vars_of_part h hi, hij⟩
  have hsum : ∑ i ∈ s.reach v, s.cost i ≤ ∑ i ∈ s.reach u, s.cost i := Finset.sum_le_sum_of_subset hsub
  have hsize := Ty.size_lt_of_part h
  unfold extent
  omega

theorem Settled.extent_bound_lt (hs : s.Settled) (h : s.bound? i = some u) : s.extent u < s.extent (.var i) := by
  have hi : i ∈ s.reach (.var i) := mem_reach.mpr ⟨lt_size_of_bound h, i, by simp [Ty.vars], .refl⟩
  -- `i` itself is not reached again, so the nodes of what it is bound to are counted in its place.
  have hsub : s.reach u ⊆ (s.reach (.var i)).erase i := fun j hj => by
    obtain ⟨hj, k, hk, hkj⟩ := mem_reach.mp hj
    have hij : Relation.TransGen s.Mentions i j := Relation.TransGen.head' ⟨u, h, hk⟩ hkj
    refine Finset.mem_erase.mpr ⟨?_, mem_reach.mpr ⟨hj, i, by simp [Ty.vars], hij.to_reflTransGen⟩⟩
    rintro rfl
    exact hs.acyclic j hij
  have hsum : ∑ j ∈ s.reach u, s.cost j ≤ ∑ j ∈ (s.reach (.var i)).erase i, s.cost j :=
    Finset.sum_le_sum_of_subset hsub
  have herase := Finset.add_sum_erase (s.reach (.var i)) s.cost hi
  have hcost : s.cost i = 1 + u.size := by simp [cost, h]
  unfold extent
  omega

theorem Settled.extent_find_le (hs : s.Settled) (u : Ty) : s.extent (s.find u) ≤ s.extent u := by
  induction u using hs.chained.chain_induction with
  | other u hu => rw [find_of_not_var hu]
  | unbound i hi => rw [find_unbound hi]
  | bound i v hi ih =>
    rw [hs.chained.find_bound hi]
    exact ih.trans (hs.extent_bound_lt hi).le

theorem Settled.extent_found_lt (hs : s.Settled) (h : v ∈ (s.find u).parts) : s.extent v < s.extent u :=
  Nat.lt_of_lt_of_le (extent_part_lt h) (hs.extent_find_le u)

theorem rest_mem_parts (fields : Dict Ty) (rest : Ty) : rest ∈ (Ty.row fields rest).parts := (.head _)

theorem Settled.extent_rest_lt (hs : s.Settled) {fields : Dict Ty} {rest : Ty} (h : s.find u = .row fields rest) :
    s.extent rest < s.extent u :=
  hs.extent_found_lt (h ▸ rest_mem_parts fields rest)

theorem weight_eq (s : TypeStore) (u : Ty) : s.weight u = u.size + 1 + ∑ i ∈ Finset.range s.vars.size, s.cost i := by
  have hfold : ∀ (vs : List TypeVar) (n : Nat),
      vs.foldl (fun n v => n + 1 + (v.bound.map Ty.size).getD 0) n =
        n + (vs.map fun v => 1 + (v.bound.map Ty.size).getD 0).sum := by
    intro vs
    induction vs with
    | nil => simp
    | cons v vs ih =>
      intro n
      rw [foldl_cons, ih, map_cons, sum_cons]
      omega
  rw [weight, ← Array.foldl_toList, hfold, ← Fin.sum_univ_fun_getElem, Finset.sum_range]
  refine congrArg _ (Finset.sum_congr rfl fun i _ => ?_)
  simp [cost, bound?, Array.getD]

theorem extent_lt_weight (s : TypeStore) (u : Ty) : s.extent u < s.weight u := by
  have hsub : s.reach u ⊆ Finset.range s.vars.size := fun j hj => Finset.mem_range.mpr (mem_reach.mp hj).1
  have hsum : ∑ i ∈ s.reach u, s.cost i ≤ ∑ i ∈ Finset.range s.vars.size, s.cost i :=
    Finset.sum_le_sum_of_subset hsub
  rw [weight_eq, extent]
  omega

end Depth

/-! ### Flattening rows -/

theorem Settled.flattenWithin_eq (hs : s.Settled) (n m : Nat) (u : Ty) (hn : s.extent u < n) (hm : s.extent u < m) :
    s.flattenWithin n u = s.flattenWithin m u := by
  induction n generalizing m u with
  | zero => omega
  | succ n ih =>
    obtain _ | m := m
    · omega
    · rw [flattenWithin, flattenWithin]
      cases hu : s.find u with
      | row fields rest =>
        have hlt := hs.extent_rest_lt hu
        simp only [ih m rest (by omega) (by omega)]
      | var | con | emptyRow | bare => rfl

theorem flatten_of_var (h : s.find u = .var i) : s.flatten u = .ok ([], .var i) := by
  rw [flatten, weight_eq, Nat.add_right_comm, flattenWithin, h]

theorem flatten_of_emptyRow (h : s.find u = .emptyRow) : s.flatten u = .ok ([], .emptyRow) := by
  rw [flatten, weight_eq, Nat.add_right_comm, flattenWithin, h]

theorem Settled.flatten_of_row (hs : s.Settled) {fields : Dict Ty} {rest : Ty} (h : s.find u = .row fields rest) :
    s.flatten u = (s.flatten rest).map fun p => (p.1.merge fields, p.2) := by
  have hlt := hs.extent_rest_lt h
  have hw := s.extent_lt_weight u
  obtain ⟨n, hn⟩ : ∃ n, s.weight u = n + 1 := ⟨s.weight u - 1, by omega⟩
  have hrest := hs.flattenWithin_eq n (s.weight rest) rest (by omega) (s.extent_lt_weight _)
  simp only [flatten, hn, flattenWithin, h, hrest]
  cases s.flattenWithin (s.weight rest) rest <;> rfl

theorem Settled.flatten_find (hs : s.Settled) (u : Ty) : s.flatten (s.find u) = s.flatten u := by
  have hf := hs.chained.find_find hs.chained (Extends.refl s) u
  have hn : s.extent (s.find u) < s.weight (s.find u) := s.extent_lt_weight _
  have hle := hs.extent_find_le u
  have hw := s.extent_lt_weight u
  rw [flatten, flatten, hs.flattenWithin_eq _ (s.weight u) (s.find u) hn (by omega)]
  obtain ⟨n, hn⟩ : ∃ n, s.weight u = n + 1 := ⟨s.weight u - 1, by omega⟩
  rw [hn, flattenWithin, flattenWithin, hf]

end TypeStore

end Scrap
