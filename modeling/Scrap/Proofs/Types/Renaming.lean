import Scrap.Proofs.Term.SortedNames
import Scrap.Proofs.Types.Walks

/-! # Renaming the variables of types

Copies can only be made of types whose rows end where they stand. A copy resolves to the tree of the type with its
variables renamed. The uses of a scheme are such copies, and so are types whose variables are renamed to letters for
display. -/

namespace Scrap

open List

variable {names : Dict Ty} {keys labels : List String} {α β : Type} {l : List α} {m : Nat} {s : TypeStore} {g : α → β}

variable {fields : Dict Ty} {rest : Ty}

namespace Dict

theorem set_mapValues (f : α → β) (d : Dict α) (k : String) (v : α) :
    Dict.set (d.mapValues f) k (f v) = (d.set k v).mapValues f := by
  induction d with
  | nil => rfl
  | cons p d ih =>
    by_cases h : p.1 = k
    · simp [mapValues, set, h]
    · simpa [mapValues, set, h] using ih

theorem ofEntries_mapValues (f : α → β) (e : Dict α) : ofEntries (e.mapValues f) = mapValues f (ofEntries e) := by
  have hmerge : ∀ d : Dict α, Dict.merge (d.mapValues f) (e.mapValues f) = (d.merge e).mapValues f := fun d => by
    induction e generalizing d with
    | nil => rfl
    | cons p e ih => exact (congrArg (merge · (mapValues f e)) (set_mapValues f d p.1 p.2)).trans (ih _)
  exact hmerge []

end Dict

namespace Resolved

mutual

def rename (ρ : Nat → Nat) : Resolved → Resolved
  | .var i => .var (ρ i)
  | .con name args => .con name (renameAll ρ args)
  | .row fields tail => .row (renameFields ρ fields) (tail.map ρ)
  | .emptyRow => .emptyRow
  | .bare => .bare
  | .cut => .cut

def renameAll (ρ : Nat → Nat) : List Resolved → List Resolved
  | [] => []
  | r :: rs => rename ρ r :: renameAll ρ rs

def renameFields (ρ : Nat → Nat) : List (String × Resolved) → List (String × Resolved)
  | [] => []
  | (k, r) :: fs => (k, rename ρ r) :: renameFields ρ fs

end

mutual

def vars : Resolved → List Nat
  | .var i => [i]
  | .con _ args => varsAll args
  | .row fields tail => varsFields fields ++ tail.toList
  | .emptyRow | .bare | .cut => []

def varsAll : List Resolved → List Nat
  | [] => []
  | r :: rs => vars r ++ varsAll rs

def varsFields : List (String × Resolved) → List Nat
  | [] => []
  | (_, r) :: fs => vars r ++ varsFields fs

end

theorem renameAll_eq (ρ : Nat → Nat) (rs : List Resolved) : renameAll ρ rs = rs.map (rename ρ) :=
  eq_map rfl fun _ _ => rfl

theorem renameFields_eq (ρ : Nat → Nat) (fs : Dict Resolved) : renameFields ρ fs = fs.mapValues (rename ρ) :=
  eq_map rfl fun _ _ => rfl

theorem mem_varsAll {rs : List Resolved} {i : Nat} : i ∈ varsAll rs ↔ ∃ r ∈ rs, i ∈ r.vars := by
  rw [eq_flatMap (F := varsAll) rfl fun _ _ => rfl, mem_flatMap]

theorem mem_varsFields {fs : List (String × Resolved)} {i : Nat} : i ∈ varsFields fs ↔ ∃ p ∈ fs, i ∈ p.2.vars := by
  rw [eq_flatMap (F := varsFields) rfl fun _ _ => rfl, mem_flatMap]

end Resolved

namespace Ty

def relabel (g : Nat → Ty) (f : Ty → Ty) : Ty → Ty
  | .var i => g i
  | .con name args => .con name (args.map f)
  | .row fields rest => .row (Dict.mapValues f fields) (f rest)
  | .emptyRow => .emptyRow
  | .bare => .bare

theorem parts_relabel (ρ : Nat → Nat) (f : Ty → Ty) (t : Ty) :
    (t.relabel (fun i => .var (ρ i)) f).parts = t.parts.map f := by
  cases t <;> simp [relabel, parts, Dict.mapValues]

end Ty

namespace TypeStore
variable {t u : Ty}
variable {p : String × Ty} {n : Nat}

/-! ### Types whose rows end where they stand -/

/-- Whether a type is not a row that goes on with a further row. A row without fields has to be open. -/
def endsHere (s : TypeStore) : Ty → Bool
  | .row fields rest =>
    match s.find rest with
    | .var _ => true
    | .emptyRow => !fields.isEmpty
    | _ => false
  | .bare => false
  | .var _ | .con _ _ | .emptyRow => true

/-- Every row in the type, with its variables followed, ends where it stands. -/
inductive Plain (s : TypeStore) : Ty → Prop
  | intro {t : Ty} (here : s.endsHere (s.find t) = true) (parts : ∀ u ∈ (s.find t).parts, Plain s u) : Plain s t

theorem endsHere_row :
    s.endsHere (.row fields rest) = true ↔ (∃ i, s.find rest = .var i) ∨ s.find rest = .emptyRow ∧ fields ≠ [] := by
  rw [endsHere]
  cases s.find rest <;> simp

theorem field_mem_parts (hp : p ∈ fields) : p.2 ∈ (Ty.row fields rest).parts :=
  mem_cons_of_mem _ (mem_map_of_mem hp)

theorem Settled.expand_here (hs : s.Settled) (h : s.find t = .row fields rest)
    (hends : s.find rest = .emptyRow ∨ ∃ i, s.find rest = .var i) (n : Nat) :
    s.expand (n + 1) t = .row (inKeyOrder ((Dict.ofEntries fields).mapValues (s.expand n))) (tailVar? (s.find rest)) :=
  hs.expand_row h (hs.flatten_here h rfl hends) n

theorem Plain.tail (h : s.Plain t) (ht : s.find t = .row fields rest) :
    s.find rest = .emptyRow ∨ ∃ i, s.find rest = .var i := by
  obtain ⟨here, -⟩ := h
  rw [ht] at here
  exact (endsHere_row.mp here).symm.imp_left And.left

theorem Plain.part (h : s.Plain t) (hu : u ∈ (s.find t).parts) : s.Plain u := by
  obtain ⟨-, parts⟩ := h
  exact parts u hu

theorem mem_of_mem_ofEntries (h : p ∈ Dict.ofEntries fields) : p ∈ fields := by
  simpa using Dict.mem_merge h

theorem Plain.expand_whole (h : s.Plain t) (hs : s.Settled) (hn : s.extent t < n) : (s.expand n t).isWhole = true := by
  induction n generalizing t with
  | zero => omega
  | succ n ih =>
    have ih : ∀ u ∈ (s.find t).parts, (s.expand n u).isWhole = true := fun u hu => by
      have hlt := hs.extent_found_lt hu
      exact ih (h.part hu) (by omega)
    cases ht : s.find t with
    | con name args =>
      rw [ht] at ih
      simp only [expand, ht, Resolved.isWhole, Resolved.areWhole_iff, forall_mem_map]
      exact ih
    | row fields rest =>
      rw [ht] at ih
      rw [hs.expand_here ht (h.tail ht), Resolved.isWhole, Resolved.fieldsWhole_iff]
      intro p hp
      obtain ⟨q, hq, rfl⟩ := mem_map.mp (mem_inKeyOrder.mp hp)
      exact ih q.2 (field_mem_parts (mem_of_mem_ofEntries hq))
    | var | emptyRow | bare => simp only [expand, ht, Resolved.isWhole]

theorem Plain.resolve_eq (h : s.Plain t) (hs : s.Settled) (hn : s.weight t ≤ n) :
    s.resolve t = some (s.expand n t) := by
  have hwhole := h.expand_whole hs (s.extent_lt_weight t)
  rw [resolve, if_pos hwhole, expand_mono hn hwhole]

/-! ### The variables that a type leads to -/

/-- The unbound variables that a type leads to, also in fields that are hidden. -/
def leavesWithin (s : TypeStore) : Nat → Ty → List Nat
  | 0, _ => []
  | n + 1, t =>
    match s.find t with
    | .var i => [i]
    | .con _ args => args.flatMap (leavesWithin s n)
    | .row fields rest => (fields.flatMap fun p => leavesWithin s n p.2) ++ leavesWithin s n rest
    | .emptyRow | .bare => []

def leaves (s : TypeStore) (t : Ty) : List Nat := s.leavesWithin (s.weight t) t

section Leaves
variable {i n : Nat}

theorem Settled.leavesWithin_eq (hs : s.Settled) (hn : s.extent t < n) (hm : s.extent t < m) :
    s.leavesWithin n t = s.leavesWithin m t := by
  induction n generalizing t m with
  | zero => omega
  | succ n ih =>
    obtain _ | m := m
    · omega
    have ih : ∀ u ∈ (s.find t).parts, s.leavesWithin n u = s.leavesWithin m u := fun u hu => by
      have hlt := hs.extent_found_lt hu
      exact ih (by omega) (by omega)
    cases ht : s.find t with
    | con name args =>
      rw [ht] at ih
      simp only [leavesWithin, ht]
      exact flatMap_congr ih
    | row fields rest =>
      rw [ht] at ih
      simp only [leavesWithin, ht]
      exact congrArg₂ (· ++ ·) (flatMap_congr fun p hp => ih p.2 (field_mem_parts hp))
        (ih rest (rest_mem_parts _ _))
    | var | emptyRow | bare => simp only [leavesWithin, ht]

theorem Settled.leaves_eq (hs : s.Settled) (hn : s.weight t ≤ n) : s.leavesWithin n t = s.leaves t :=
  hs.leavesWithin_eq ((s.extent_lt_weight t).trans_le hn) (s.extent_lt_weight t)

theorem Chained.leaf (hs : s.Chained) (ht : s.Scopes t) (hi : i ∈ s.leavesWithin n t) :
    i < s.vars.size ∧ s.bound? i = none := by
  induction n generalizing t with
  | zero => cases hi
  | succ n ih =>
    have hfound := hs.scopes_find ht
    cases h : s.find t with
    | var j =>
      simp only [leavesWithin, h, mem_singleton] at hi
      subst hi
      exact ⟨hfound i (by simp [h, Ty.vars]), hs.unbound_of_find h⟩
    | con name args =>
      simp only [leavesWithin, h, mem_flatMap] at hi
      obtain ⟨u, hu, hi⟩ := hi
      rw [h] at hfound
      exact ih (hfound.part hu) hi
    | row fields rest =>
      simp only [leavesWithin, h, mem_append, mem_flatMap] at hi
      rw [h] at hfound
      rcases hi with ⟨p, hp, hi⟩ | hi
      · exact ih (hfound.part (field_mem_parts hp)) hi
      · exact ih (hfound.part (rest_mem_parts _ _)) hi
    | emptyRow | bare => simp [leavesWithin, h] at hi

theorem Plain.leaf_of_vars (h : s.Plain t) (hs : s.Settled) (hn : s.extent t < n) (hi : i ∈ (s.expand m t).vars) :
    i ∈ s.leavesWithin n t := by
  induction m generalizing t n with
  | zero => cases hi
  | succ m ih =>
    obtain _ | n := n
    · omega
    have ih : ∀ u ∈ (s.find t).parts, i ∈ (s.expand m u).vars → i ∈ s.leavesWithin n u := fun u hu => by
      have hlt := hs.extent_found_lt hu
      exact ih (h.part hu) (by omega)
    cases ht : s.find t with
    | var j => simpa [expand, leavesWithin, ht, Resolved.vars] using hi
    | con name args =>
      rw [ht] at ih
      simp only [expand, ht, Resolved.vars, Resolved.mem_varsAll, mem_map] at hi
      obtain ⟨_, ⟨u, hu, rfl⟩, hi⟩ := hi
      simp only [leavesWithin, ht, mem_flatMap]
      exact ⟨u, hu, ih u hu hi⟩
    | row fields rest =>
      have hrest := hs.extent_rest_lt ht
      rw [ht] at ih
      rw [hs.expand_here ht (h.tail ht), Resolved.vars, mem_append, Resolved.mem_varsFields] at hi
      simp only [leavesWithin, ht, mem_append, mem_flatMap]
      rcases hi with ⟨p, hp, hi⟩ | hi
      · obtain ⟨q, hq, rfl⟩ := mem_map.mp (mem_inKeyOrder.mp hp)
        have hq := mem_of_mem_ofEntries hq
        exact .inl ⟨q, hq, ih q.2 (field_mem_parts hq) hi⟩
      · -- What the row ends in is found in one step.
        obtain _ | n := n
        · omega
        rcases h.tail ht with hz | ⟨j, hz⟩
        · simp [hz, tailVar?] at hi
        · right
          simpa [hz, tailVar?, leavesWithin] using hi
    | emptyRow | bare => simp [expand, ht, Resolved.vars] at hi

theorem mapM_ok {ε : Type} {f : α → Except ε β} (h : ∀ a ∈ l, f a = .ok (g a)) : l.mapM f = .ok (l.map g) := by
  induction l with
  | nil => rfl
  | cons a l ih =>
    rw [mapM_cons, h a (.head _), ih fun b hb => h b (.tail _ hb)]
    rfl

theorem Plain.freeWithin (h : s.Plain t) (hs : s.Settled) (hn : s.extent t < n) :
    s.freeWithin n t = .ok ((s.leavesWithin n t).map s.nameOf) := by
  induction n generalizing t with
  | zero => omega
  | succ n ih =>
    have ih : ∀ u ∈ (s.find t).parts, s.freeWithin n u = .ok ((s.leavesWithin n u).map s.nameOf) := fun u hu => by
      have hlt := hs.extent_found_lt hu
      exact ih (h.part hu) (by omega)
    cases ht : s.find t with
    | con name args =>
      rw [ht] at ih
      have hargs := mapM_ok (l := args) ih
      simp only [TypeStore.freeWithin, leavesWithin, ht, hargs, map_flatMap]
      rfl
    | row fields rest =>
      rw [ht] at ih
      have hfields := mapM_ok fun p hp => ih p.2 (field_mem_parts (p := p) hp)
      simp only [TypeStore.freeWithin, leavesWithin, ht, hfields, ih rest (rest_mem_parts _ _), map_append,
        map_flatMap]
      rfl
    | bare =>
      obtain ⟨here, -⟩ := h
      rw [ht] at here
      cases here
    | var | emptyRow => simp only [TypeStore.freeWithin, leavesWithin, ht, map_cons, map_nil]

theorem Plain.free (h : s.Plain t) (hs : s.Settled) : s.free t = .ok ((s.leaves t).map s.nameOf) :=
  h.freeWithin hs (s.extent_lt_weight t)

end Leaves

/-! ### Copies -/

def ToVariables (names : Dict Ty) : Prop := ∀ x u, names.get? x = some u → ∃ j, u = .var j

/-- Every name stands for a variable that is unbound or leads to an unbound one. -/
def Renames (s : TypeStore) (names : Dict Ty) : Prop :=
  ∀ x u, names.get? x = some u → ∃ j k, u = .var j ∧ s.find (.var j) = .var k

def replaced (s : TypeStore) (names : Dict Ty) (i : Nat) : Ty := (names.get? (s.nameOf i)).getD (.var i)

/-- The unbound variable that stands for a variable by its name. -/
def renamed (s : TypeStore) (names : Dict Ty) (i : Nat) : Nat :=
  ((names.get? (s.nameOf i)).bind fun u => tailVar? (s.find u)).getD i

def copyWithin (s : TypeStore) (names : Dict Ty) : Nat → Ty → Ty
  | 0, t => t
  | n + 1, t => (s.find t).relabel (s.replaced names) (copyWithin s names n)

section Copies
variable {n : Nat}

theorem Renames.toVariables (h : s.Renames names) : ToVariables names := fun x u hx => by
  obtain ⟨j, -, rfl, -⟩ := h x u hx
  exact ⟨j, rfl⟩

theorem ToVariables.replaced (h : ToVariables names) (s : TypeStore) (i : Nat) : ∃ j, s.replaced names i = .var j := by
  rw [TypeStore.replaced]
  cases hi : names.get? (s.nameOf i) with
  | none => exact ⟨i, rfl⟩
  | some u => exact h _ _ hi

theorem Renames.find_replaced (h : s.Renames names) {i : Nat} (hi : s.bound? i = none) :
    s.find (s.replaced names i) = .var (s.renamed names i) := by
  rw [replaced, renamed]
  cases hx : names.get? (s.nameOf i) with
  | none => exact find_unbound hi
  | some u =>
    obtain ⟨j, k, rfl, hk⟩ := h _ _ hx
    simp [hk, tailVar?]

variable (h : s.Renames names) (hs : s.Settled)
include h hs

theorem Renames.find_copy (n : Nat) (t : Ty) : s.find (s.copyWithin names (n + 1) t) =
    (s.find t).relabel (fun i => .var (s.renamed names i)) (s.copyWithin names n) := by
  rw [copyWithin]
  cases ht : s.find t with
  | var i => exact h.find_replaced (hs.chained.unbound_of_find ht)
  | con | row | emptyRow | bare => exact find_of_not_var rfl

theorem Renames.find_rest (hn : s.extent rest < n)
    (hends : s.find rest = .emptyRow ∨ ∃ i, s.find rest = .var i) :
    (s.find (s.copyWithin names n rest) = .emptyRow ∨ ∃ i, s.find (s.copyWithin names n rest) = .var i) ∧
      tailVar? (s.find (s.copyWithin names n rest)) = (tailVar? (s.find rest)).map (s.renamed names) := by
  obtain _ | n := n
  · omega
  rw [h.find_copy hs]
  rcases hends with hz | ⟨i, hz⟩ <;> simp [hz, Ty.relabel, tailVar?]

theorem Plain.expand_copy (ht : s.Plain t) (hn : s.extent t < n) (m : Nat) :
    s.expand m (s.copyWithin names n t) = (s.expand m t).rename (s.renamed names) := by
  induction m generalizing t n with
  | zero => rfl
  | succ m ih =>
    obtain _ | n := n
    · omega
    have hfind := h.find_copy hs n t
    have ih : ∀ u ∈ (s.find t).parts, s.expand m (s.copyWithin names n u) = (s.expand m u).rename (s.renamed names) :=
      fun u hu => by
        have hlt := hs.extent_found_lt hu
        exact ih (ht.part hu) (by omega)
    cases hfound : s.find t with
    | con name args =>
      rw [hfound] at ih hfind
      simp only [expand, hfound, hfind, Ty.relabel, Resolved.rename, Resolved.renameAll_eq, map_map]
      congr 1
      exact map_congr_left ih
    | row fields rest =>
      have hrest := hs.extent_rest_lt hfound
      obtain ⟨hends, htail⟩ := h.find_rest (n := n) hs (by omega) (ht.tail hfound)
      rw [hfound] at ih hfind
      rw [hs.expand_here hfind hends, hs.expand_here hfound (ht.tail hfound), htail, Resolved.rename,
        Resolved.renameFields_eq, Dict.ofEntries_mapValues, inKeyOrder_mapValues, inKeyOrder_mapValues,
        inKeyOrder_mapValues, Dict.mapValues, map_map, map_map]
      congr 1
      refine map_congr_left fun p hp => congrArg (Prod.mk p.1) (ih p.2 (field_mem_parts ?_))
      exact mem_of_mem_ofEntries (mem_inKeyOrder.mp hp)
    | var | emptyRow | bare =>
      rw [hfound] at hfind
      simp only [expand, hfind, hfound, Ty.relabel, Resolved.rename]

theorem Plain.copy (ht : s.Plain t) (hn : s.extent t < n) :
    s.Plain (s.copyWithin names n t) := by
  induction n generalizing t with
  | zero => omega
  | succ n ih =>
    have hfind := h.find_copy hs n t
    refine ⟨?_, fun u hu => ?_⟩
    · obtain ⟨here, -⟩ := id ht
      rw [hfind]
      cases hfound : s.find t with
      | row fields rest =>
        have hrest := hs.extent_rest_lt hfound
        obtain _ | n := n
        · omega
        rw [hfound] at here
        refine endsHere_row.mpr ?_
        rw [h.find_copy hs]
        rcases endsHere_row.mp here with ⟨i, hi⟩ | ⟨hz, hne⟩
        · exact .inl ⟨s.renamed names i, by rw [hi]; rfl⟩
        · exact .inr ⟨by rw [hz]; rfl, by simpa [Dict.mapValues] using hne⟩
      | bare =>
        rw [hfound] at here
        cases here
      | var | con | emptyRow => rfl
    · rw [hfind, Ty.parts_relabel] at hu
      obtain ⟨v, hv, rfl⟩ := mem_map.mp hu
      have hlt := hs.extent_found_lt hv
      exact ih (ht.part hv) (by omega)

theorem Renames.leaves_copy (hn : s.extent t < n) (m : Nat) :
    s.leavesWithin m (s.copyWithin names n t) = (s.leavesWithin m t).map (s.renamed names) := by
  induction m generalizing t n with
  | zero => rfl
  | succ m ih =>
    obtain _ | n := n
    · omega
    have hfind := h.find_copy hs n t
    have ih : ∀ u ∈ (s.find t).parts,
        s.leavesWithin m (s.copyWithin names n u) = (s.leavesWithin m u).map (s.renamed names) := fun u hu => by
      have hlt := hs.extent_found_lt hu
      exact ih (by omega)
    cases hfound : s.find t with
    | con name args =>
      rw [hfound] at ih hfind
      simp only [leavesWithin, hfind, hfound, Ty.relabel, map_flatMap, flatMap_map]
      exact flatMap_congr ih
    | row fields rest =>
      rw [hfound] at ih hfind
      simp only [leavesWithin, hfind, hfound, Ty.relabel, map_append, map_flatMap, Dict.mapValues,
        flatMap_map]
      exact congrArg₂ (· ++ ·) (flatMap_congr fun p hp => ih p.2 (field_mem_parts hp))
        (ih rest (rest_mem_parts _ _))
    | var | emptyRow | bare =>
      rw [hfound] at hfind
      simp only [leavesWithin, hfind, hfound, Ty.relabel, map_cons, map_nil]

theorem Plain.copied (ht : s.Plain t) (hn : s.extent t < n) :
    s.Plain (s.copyWithin names n t) ∧
      (∃ tree, s.resolve t = some tree ∧ s.resolve (s.copyWithin names n t) = some (tree.rename (s.renamed names))) ∧
      s.leaves (s.copyWithin names n t) = (s.leaves t).map (s.renamed names) := by
  have hcopy := ht.copy h hs hn
  -- Both types are walked to a depth that is enough for either.
  have hleft := Nat.le_max_left (s.weight (s.copyWithin names n t)) (s.weight t)
  have hright := Nat.le_max_right (s.weight (s.copyWithin names n t)) (s.weight t)
  refine ⟨hcopy, ⟨_, ht.resolve_eq hs hright, ?_⟩, ?_⟩
  · rw [hcopy.resolve_eq hs hleft, ht.expand_copy h hs hn]
  · rw [← hs.leaves_eq hleft, h.leaves_copy hs hn, hs.leaves_eq hright]

end Copies

/-! ### Copies with new variables -/

section Adds
variable {r : TypeStore}

theorem Adds.find (h : s.Adds labels r) (hs : s.Settled) (u : Ty) : r.find u = s.find u := by
  have hr := h.settled hs
  induction u using hs.chained.chain_induction with
  | other u hu => rw [find_of_not_var hu, find_of_not_var hu]
  | unbound i hi => rw [find_unbound hi, find_unbound ((h.bound? i).trans hi)]
  | bound i u hi ih => rw [hs.chained.find_bound hi, hr.chained.find_bound ((h.bound? i).trans hi), ih]

theorem Plain.of_find (hfind : ∀ u, r.find u = s.find u) (h : s.Plain t) : r.Plain t := by
  induction h with
  | @intro t here parts ih =>
    refine ⟨?_, fun u hu => ih u (hfind t ▸ hu)⟩
    rw [hfind]
    revert here
    cases s.find t with
    | row => simp only [endsHere_row, hfind, imp_self]
    | var | con | emptyRow | bare => exact id

theorem Adds.plain (h : s.Adds labels r) (hs : s.Settled) : r.Plain t ↔ s.Plain t :=
  ⟨Plain.of_find fun u => (h.find hs u).symm, Plain.of_find (h.find hs)⟩

theorem Adds.leaves (h : s.Adds labels r) (hs : s.Settled) (t : Ty) : r.leaves t = s.leaves t := by
  have hwithin : ∀ n, r.leavesWithin n = s.leavesWithin n := fun n => by
    induction n with
    | zero => rfl
    | succ n ih =>
      funext u
      simp only [leavesWithin, h.find hs, ih]
  rw [← (h.settled hs).leaves_eq (Nat.le_max_left (r.weight t) (s.weight t)), hwithin,
    hs.leaves_eq (Nat.le_max_right (r.weight t) (s.weight t))]

end Adds

end TypeStore

namespace TypeM
open TypeStore
variable {t : Ty}
variable {r : TypeStore} {u : Ty}

/-! ### Substitution copies -/

section Substitution
variable {n : Nat}
variable {f : α → TypeM β}

theorem mapM_returns {bs : List β} (hreads : ∀ a ∈ l, Reads (f a) s)
    (h : outcome (l.mapM f) s = (.ok bs, r)) : ∀ a ∈ l, ∃ b, outcome (f a) s = (.ok b, s) := by
  induction l generalizing bs r with
  | nil => simp
  | cons a l ih =>
    rw [mapM_cons] at h
    obtain ⟨b, s', ha, hrest⟩ := bind_returns h
    obtain ⟨o, ho, -⟩ := hreads a (.head _)
    obtain ⟨-, rfl⟩ := Prod.mk.inj (ha.symm.trans ho)
    obtain ⟨bs', s', hl, -⟩ := bind_returns hrest
    intro c hc
    rcases mem_cons.mp hc with rfl | hc
    · exact ⟨b, ha⟩
    · exact ih (fun a ha => hreads a (.tail _ ha)) hl c hc

theorem outcome_row (h : fields ≠ [] ∨ rest ≠ .emptyRow) (s : TypeStore) :
    outcome (row fields rest) s = (.ok (.row fields rest), s) := by
  unfold row
  split
  · simp at h
  · rfl

theorem substWithin_copy (ht : s.Plain t) (h : ToVariables names) (hs : s.Settled) (hn : s.extent t < n) :
    outcome (substWithin names n t) s = (.ok (s.copyWithin names n t), s) := by
  induction n generalizing t with
  | zero => omega
  | succ n ih =>
    have ih : ∀ u ∈ (s.find t).parts, outcome (substWithin names n u) s = (.ok (s.copyWithin names n u), s) :=
      fun u hu => by
        have hlt := hs.extent_found_lt hu
        exact ih (ht.part hu) (by omega)
    rw [substWithin, bind_ok (m := find t) (a := s.find t) (t := s) rfl, copyWithin]
    cases hfound : s.find t with
    | var i => rfl
    | con name args =>
      rw [hfound] at ih
      exact bind_ok (outcome_mapM ih)
    | row fields rest =>
      have hrest := hs.extent_rest_lt hfound
      obtain ⟨here, -⟩ := ht
      rw [hfound] at ih here
      have hfields : outcome (fields.mapM fun p => return (p.1, ← substWithin names n p.2)) s =
          (.ok (Dict.mapValues (s.copyWithin names n) fields), s) :=
        outcome_mapM fun p hp => bind_ok (ih p.2 (field_mem_parts hp))
      have hcopy := ih rest (rest_mem_parts _ _)
      obtain _ | n := n
      · omega
      rw [bind_ok hcopy, Ty.relabel, copyWithin]
      rcases endsHere_row.mp here with ⟨i, hi⟩ | ⟨hz, hne⟩
      · obtain ⟨j, hj⟩ := h.replaced s i
        rw [hi, Ty.relabel, hj]
        exact (bind_ok hfields).trans (outcome_row (.inr (by simp)) s)
      · rw [hz]
        exact (bind_ok hfields).trans (outcome_row (.inl (by simpa [Dict.mapValues] using hne)) s)
    | emptyRow => rfl
    | bare =>
      obtain ⟨here, -⟩ := ht
      rw [hfound] at here
      cases here

theorem plain_of_substWithin (h : ToVariables names) (hs : s.Settled) (hn : s.extent t < n)
    (hret : outcome (substWithin names n t) s = (.ok u, r)) : s.Plain t := by
  induction n generalizing t u r with
  | zero => omega
  | succ n ih =>
    have hparts : ∀ v ∈ (s.find t).parts, s.extent v < n := fun v hv => by
      have hlt := hs.extent_found_lt hv
      omega
    rw [substWithin, bind_ok (m := find t) (a := s.find t) (t := s) rfl] at hret
    cases hfound : s.find t with
    | var i => exact ⟨by rw [hfound]; rfl, by simp [hfound, Ty.parts]⟩
    | con name args =>
      rw [hfound] at hret hparts
      obtain ⟨us, s', hargs, -⟩ := bind_returns hret
      refine ⟨by rw [hfound]; rfl, fun v hv => ?_⟩
      rw [hfound] at hv
      obtain ⟨w, hw⟩ := mapM_returns (fun v hv => substWithin_reads hs names (hparts v hv)) hargs v hv
      exact ih (hparts v hv) hw
    | row fields rest =>
      rw [hfound] at hret hparts
      -- The rest of the row has been copied, so the form of its copy, which decides, is its own.
      obtain ⟨w, s', hrest, hret⟩ := bind_returns hret
      have hplain := ih (hparts rest (rest_mem_parts _ _)) hrest
      have hcopy := substWithin_copy hplain h hs (hparts rest (rest_mem_parts _ _))
      obtain ⟨hw, rfl⟩ := Prod.mk.inj (hcopy.symm.trans hrest)
      cases hw
      have hends : s.endsHere (.row fields rest) = true ∧ ∃ fs r,
          outcome (fields.mapM fun p => return (p.1, ← substWithin names n p.2)) s = (.ok fs, r) := by
        have hlt := hparts rest (rest_mem_parts _ _)
        obtain _ | n := n
        · omega
        rw [copyWithin] at hret
        rw [endsHere_row]
        cases hz : s.find rest with
        | var i =>
          obtain ⟨j, hj⟩ := h.replaced s i
          rw [hz, Ty.relabel, hj] at hret
          obtain ⟨fs, r, hfields, -⟩ := bind_returns hret
          exact ⟨.inl ⟨i, rfl⟩, fs, r, hfields⟩
        | emptyRow =>
          rw [hz] at hret
          obtain ⟨fs, r, hfields, -⟩ := bind_returns hret
          refine ⟨.inr ⟨rfl, ?_⟩, fs, r, hfields⟩
          rintro rfl
          cases hret
        | con | row | bare =>
          rw [hz] at hret
          cases hret
      obtain ⟨here, fs, r, hfields⟩ := hends
      refine ⟨hfound ▸ here, fun v hv => ?_⟩
      rw [hfound] at hv
      rcases mem_cons.mp hv with rfl | hv
      · exact hplain
      · obtain ⟨p, hp, rfl⟩ := mem_map.mp hv
        have hreads : ∀ p ∈ fields, Reads (do return (p.1, ← substWithin names n p.2)) s := fun p hp =>
          (substWithin_reads hs names (hparts p.2 (field_mem_parts hp))).bind fun _ _ => Reads.pure _
        obtain ⟨q, hq⟩ := mapM_returns hreads hfields p hp
        obtain ⟨v, r, hv, -⟩ := bind_returns hq
        exact ih (hparts p.2 (field_mem_parts hp)) hv
    | emptyRow => exact ⟨by rw [hfound]; rfl, by simp [hfound, Ty.parts]⟩
    | bare =>
      rw [hfound] at hret
      cases hret

theorem subst_copy (ht : s.Plain t) (h : ToVariables names) (hs : s.Settled) :
    outcome (subst t names) s = (.ok (s.copyWithin names (s.weight t) t), s) :=
  substWithin_copy ht h hs (s.extent_lt_weight t)

/-- Exactly the types whose rows end where they stand can be copied. -/
theorem subst_returns_iff (h : ToVariables names) (hs : s.Settled) :
    (∃ u r, outcome (subst t names) s = (.ok u, r)) ↔ s.Plain t :=
  ⟨fun ⟨_, _, hret⟩ => plain_of_substWithin h hs (s.extent_lt_weight t) hret, fun ht => ⟨_, _, subst_copy ht h hs⟩⟩

end Substitution

/-! ### New variables for names -/

def moved (s : TypeStore) (n : Nat) (keys : List String) (i : Nat) : Nat :=
  if s.nameOf i ∈ keys then n + keys.idxOf (s.nameOf i) else i

section Moves
variable {r : TypeStore}

theorem get?_numbered (n : Nat) (keys : List String) (x : String) :
    (numbered n keys).get? x = if x ∈ keys then some (.var (n + keys.idxOf x)) else none := by
  induction keys generalizing n with
  | nil => rfl
  | cons k keys ih =>
    rw [numbered_cons, Dict.get?_cons]
    by_cases hx : x = k
    · simp [hx]
    · have hk : k ≠ x := fun h => hx h.symm
      simp [hx, ih, idxOf_cons_ne _ hk, Nat.add_assoc, Nat.add_comm 1]

theorem ofEntries_numbered (hk : keys.Nodup) (n : Nat) : Dict.ofEntries (numbered n keys) = numbered n keys := by
  refine Dict.ofEntries_of_proper ?_
  rw [Dict.Proper]
  have hkeys : Dict.keys (numbered n keys) = keys := by simp [numbered, Dict.keys, map_map, Function.comp_def]
  rwa [hkeys]

theorem find_new (h : s.Adds labels r) (i : Nat) : r.find (.var (s.vars.size + i)) = .var (s.vars.size + i) :=
  find_unbound ((h.bound? _).trans (bound?_of_size_le (Nat.le_add_right _ _)))

theorem renames_numbered (h : s.Adds labels r) (keys : List String) : r.Renames (numbered s.vars.size keys) := by
  intro x u hx
  rw [get?_numbered] at hx
  split at hx
  · cases hx
    exact ⟨_, _, rfl, find_new h _⟩
  · cases hx

theorem renamed_numbered (h : s.Adds labels r) (keys : List String) :
    r.renamed (numbered s.vars.size keys) = moved r s.vars.size keys := by
  funext i
  rw [renamed, get?_numbered, moved]
  split
  · rw [Option.bind_some, find_new h]
    rfl
  · rfl

/-- A copy with new variables for some names is made of exactly the types whose rows end where they stand. -/
theorem subst_numbered_iff (hs : s.Settled) (hadds : s.Adds labels r) (hk : keys.Nodup) :
    (∃ u r', outcome (subst t (Dict.ofEntries (numbered s.vars.size keys))) r = (.ok u, r')) ↔ s.Plain t := by
  rw [ofEntries_numbered hk, subst_returns_iff (renames_numbered hadds keys).toVariables (hadds.settled hs),
    hadds.plain hs]

theorem subst_numbered (hs : s.Settled) (hadds : s.Adds labels r) (hk : keys.Nodup) (ht : s.Plain t) :
    ∃ u, outcome (subst t (Dict.ofEntries (numbered s.vars.size keys))) r = (.ok u, r) ∧ r.Plain u ∧
      (∃ tree, r.resolve t = some tree ∧ r.resolve u = some (tree.rename (moved r s.vars.size keys)) ∧
        ∀ i ∈ tree.vars, i ∈ s.leaves t) ∧
      r.leaves u = (s.leaves t).map (moved r s.vars.size keys) := by
  have hr := hadds.settled hs
  have hplain := (hadds.plain hs).mpr ht
  have hnames := renames_numbered hadds keys
  obtain ⟨hcopy, ⟨tree, htree, hresolve⟩, hleaves⟩ := hplain.copied hnames hr (r.extent_lt_weight t)
  rw [renamed_numbered hadds] at hresolve hleaves
  rw [hadds.leaves hs t] at hleaves
  rw [ofEntries_numbered hk]
  refine ⟨_, subst_copy hplain hnames.toVariables hr, hcopy, ⟨tree, htree, hresolve, fun i hi => ?_⟩, hleaves⟩
  rw [← hadds.leaves hs]
  rw [hplain.resolve_eq hr (Nat.le_refl _)] at htree
  cases htree
  exact hplain.leaf_of_vars hr (r.extent_lt_weight t) hi

theorem nameOf_moved (hadds : s.Adds labels r) (hlength : labels.length = keys.length) {i : Nat}
    (hi : r.nameOf i ∈ keys) : labels[keys.idxOf (r.nameOf i)]? = some (r.nameOf (moved r s.vars.size keys i)) := by
  have hlt : keys.idxOf (r.nameOf i) < labels.length := hlength ▸ idxOf_lt_length_of_mem hi
  rw [moved, if_pos hi, hadds.nameOf_new (getElem?_eq_getElem hlt), getElem?_eq_getElem hlt]

theorem names_of_moved (hadds : s.Adds labels r) (hlength : labels.length = keys.length) (hk : keys.Nodup)
    {l : List Nat} (hl : ∀ x, x ∈ keys ↔ x ∈ l.map r.nameOf) (x : String) :
    x ∈ labels ↔ x ∈ (l.map (moved r s.vars.size keys)).map r.nameOf := by
  simp only [map_map, mem_map, Function.comp_apply]
  constructor
  · intro hx
    obtain ⟨j, hj, rfl⟩ := getElem_of_mem hx
    have hj' : j < keys.length := hlength ▸ hj
    obtain ⟨i, hi, hname⟩ := mem_map.mp ((hl _).mp (getElem_mem hj'))
    have hmoved := nameOf_moved hadds hlength (hname ▸ getElem_mem hj' : r.nameOf i ∈ keys)
    rw [hname, hk.idxOf_getElem, getElem?_eq_getElem hj] at hmoved
    exact ⟨i, hi, (Option.some.inj hmoved).symm⟩
  · rintro ⟨i, hi, rfl⟩
    exact mem_of_getElem? (nameOf_moved hadds hlength ((hl _).mpr (mem_map_of_mem hi)))

end Moves

/-! ### Uses of schemes -/

section Schemes
variable {names fixed : List String} {ctx : TypeContext}

/-- A use of the scheme of a type is a copy with new variables for the names that the context does not fix. -/
theorem instantiate_generalize (hfree : s.free t = .ok names) (hctx : outcome (freeInContext ctx) s = (.ok fixed, s)) :
    ∃ labels r, s.Adds labels r ∧
      labels.length = (Term.sortedNames (names.filter fun x => !fixed.contains x)).length ∧
      outcome (generalize t ctx >>= instantiate) s = outcome (subst t (Dict.ofEntries
        (numbered s.vars.size (Term.sortedNames (names.filter fun x => !fixed.contains x))))) r := by
  obtain ⟨labels, r, hloop, hadds, hlabels⟩ := naming_loop (fun _ => fresh) (fun _ _ => True) id
    (fun _ q => ⟨"t" ++ toString q.counter, _, rfl, by simp [Adds], trivial⟩)
    (Term.sortedNames (names.filter fun x => !fixed.contains x)) [] s
  refine ⟨labels, r, hadds, hlabels.length_eq.symm, ?_⟩
  have hscheme : outcome (generalize t ctx) s =
      (.ok { vars := Term.sortedNames (names.filter fun x => !fixed.contains x), ty := t }, s) := by
    unfold generalize
    rw [bind_ok ((outcome_free t s).trans (congrArg (·, s) hfree)), bind_ok hctx]
    rfl
  rw [map_id] at hloop
  rw [bind_ok hscheme]
  unfold instantiate
  exact bind_ok hloop

/-- Variables of fixed names stay as they are. The others are replaced by new variables, one for each name. -/
def Freshens (s r : TypeStore) (fixed : List String) (vars : List Nat) (ρ : Nat → Nat) : Prop :=
  ∀ i ∈ vars, (s.nameOf i ∈ fixed → ρ i = i) ∧
    (s.nameOf i ∉ fixed → s.vars.size ≤ ρ i ∧ ρ i < r.vars.size ∧ r.bound? (ρ i) = none ∧
      ∀ j ∈ vars, s.nameOf j ∉ fixed → (ρ i = ρ j ↔ s.nameOf i = s.nameOf j))

theorem moved_freshens {vars : List Nat} (hadds : s.Adds labels r)
    (hlength : labels.length = keys.length)
    (hvars : ∀ i ∈ vars, i < s.vars.size ∧ (s.nameOf i ∈ keys ↔ s.nameOf i ∉ fixed)) :
    Freshens s r fixed vars (moved r s.vars.size keys) := by
  intro i hi
  obtain ⟨hlt, hkey⟩ := hvars i hi
  have hname := hadds.nameOf_old hlt
  refine ⟨fun hfixed => ?_, fun hfree => ?_⟩
  · rw [moved, hname, if_neg fun h => hkey.mp h hfixed]
  · have hmem := hkey.mpr hfree
    have hidx := idxOf_lt_length_of_mem hmem
    have hsize := hadds.size
    have hmoved : moved r s.vars.size keys i = s.vars.size + keys.idxOf (s.nameOf i) := by
      rw [moved, hname, if_pos hmem]
    refine ⟨by omega, by omega, (hadds.bound? _).trans (bound?_of_size_le (by omega)), fun j hj hfree' => ?_⟩
    obtain ⟨hlt', hkey'⟩ := hvars j hj
    have hmem' := hkey'.mpr hfree'
    rw [hmoved, moved, hadds.nameOf_old hlt', if_pos hmem', Nat.add_left_cancel_iff, idxOf_inj hmem]

theorem use_returns_iff (hs : s.Settled) (hctx : outcome (freeInContext ctx) s = (.ok fixed, s)) :
    (∃ u r, outcome (generalize t ctx >>= instantiate) s = (.ok u, r)) ↔ s.Plain t := by
  cases hfree : s.free t with
  | error e =>
    have hfails : (outcome (generalize t ctx >>= instantiate) s).1 = .error e := by
      unfold generalize
      exact bind_error (bind_error (by rw [outcome_free, hfree]))
    constructor
    · rintro ⟨u, r, hret⟩
      rw [hret] at hfails
      cases hfails
    · intro hplain
      rw [hplain.free hs] at hfree
      cases hfree
  | ok names =>
    obtain ⟨labels, r, hadds, -, hout⟩ := instantiate_generalize hfree hctx
    rw [hout, subst_numbered_iff hs hadds (Term.nodup_sortedNames _)]

theorem use_freshens (hs : s.Settled) (ht : s.Scopes t) (hctx : outcome (freeInContext ctx) s = (.ok fixed, s))
    (hret : outcome (generalize t ctx >>= instantiate) s = (.ok u, r)) :
    ∃ tree ρ, r.resolve t = some tree ∧ r.resolve u = some (tree.rename ρ) ∧ Freshens s r fixed tree.vars ρ := by
  have hplain := (use_returns_iff hs hctx).mp ⟨u, r, hret⟩
  obtain ⟨labels, r', hadds, hlength, hout⟩ := instantiate_generalize (hplain.free hs) hctx
  obtain ⟨v, hsubst, -, ⟨tree, htree, hrenamed, hvars⟩, -⟩ :=
    subst_numbered hs hadds (Term.nodup_sortedNames _) hplain
  rw [hout, hsubst] at hret
  cases hret
  refine ⟨tree, _, htree, hrenamed, moved_freshens hadds hlength fun i hi => ?_⟩
  have hleaf := hvars i hi
  refine ⟨(hs.chained.leaf ht hleaf).1, ?_⟩
  rw [Term.mem_sortedNames, mem_filter]
  simp only [mem_map_of_mem hleaf, true_and]
  simp

end Schemes

/-! ### Letters for display -/

theorem letters_sorted : letters.Pairwise (· < ·) := by
  have hchars : "abcdefghijklmnopqrstuvwxyz".toList.Pairwise (· < ·) := by decide
  refine pairwise_map.mpr (hchars.imp fun {a b} hab => ?_)
  rw [String.lt_iff_toList_lt]
  simpa [cons_lt_cons_iff] using hab

/-- Renaming to letters returns for exactly the types that can be copied and have few enough variables. -/
theorem minimize_returns_iff (hs : s.Settled) : (∃ u r, outcome (minimize t) s = (.ok u, r)) ↔
    s.Plain t ∧ ∃ names, s.free t = .ok names ∧ (Term.sortedNames names).length ≤ letters.length := by
  cases hfree : s.free t with
  | error e =>
    have hfails : (outcome (minimize t) s).1 = .error e := by
      unfold minimize
      exact bind_error (by rw [outcome_free, hfree])
    constructor
    · rintro ⟨u, r, hret⟩
      rw [hret] at hfails
      cases hfails
    · rintro ⟨-, names, hnames, -⟩
      cases hnames
  | ok names =>
    rcases Nat.lt_or_ge letters.length (Term.sortedNames names).length with hn | hn
    · rw [minimize_tooMany hfree hn]
      simp [hn]
    · obtain ⟨r, hadds, hout⟩ := minimize_subst hfree hn
      rw [hout, subst_numbered_iff hs hadds (Term.nodup_sortedNames names)]
      simp [hn]

theorem minimize_copy (hs : s.Settled) (ht : s.Plain t) (hleaves : ∀ i ∈ s.leaves t, i < s.vars.size)
    (hkeys : keys = Term.sortedNames ((s.leaves t).map s.nameOf)) (hn : keys.length ≤ letters.length) :
    ∃ u r, s.Adds (letters.take keys.length) r ∧ outcome (minimize t) s = (.ok u, r) ∧ r.Plain u ∧
      (∃ tree, r.resolve t = some tree ∧ r.resolve u = some (tree.rename (moved r s.vars.size keys)) ∧
        ∀ i ∈ tree.vars, i ∈ s.leaves t) ∧
      (∀ i ∈ r.leaves u, i < r.vars.size) ∧ ∀ x, x ∈ letters.take keys.length ↔ x ∈ (r.leaves u).map r.nameOf := by
  subst hkeys
  obtain ⟨r, hadds, hout⟩ := minimize_subst (ht.free hs) hn
  obtain ⟨u, hsubst, hplain, htree, hl⟩ := subst_numbered hs hadds (Term.nodup_sortedNames _) ht
  have hold : ∀ i ∈ s.leaves t, r.nameOf i = s.nameOf i := fun i hi => hadds.nameOf_old (hleaves i hi)
  have hmem : ∀ x, x ∈ Term.sortedNames ((s.leaves t).map s.nameOf) ↔ x ∈ (s.leaves t).map r.nameOf := fun x => by
    rw [Term.mem_sortedNames, map_congr_left hold]
  have hlength : (letters.take (Term.sortedNames ((s.leaves t).map s.nameOf)).length).length =
      (Term.sortedNames ((s.leaves t).map s.nameOf)).length := length_take_of_le hn
  refine ⟨u, r, hadds, hout.trans hsubst, hplain, htree, fun i hi => ?_, ?_⟩
  · rw [hl] at hi
    obtain ⟨j, hj, rfl⟩ := mem_map.mp hi
    have hkey := (hmem _).mpr (mem_map_of_mem hj)
    have hidx := idxOf_lt_length_of_mem hkey
    rw [moved, if_pos hkey, hadds.size]
    omega
  · rw [hl]
    exact names_of_moved hadds hlength (Term.nodup_sortedNames _) hmem

theorem minimize_again (hs : s.Settled) (ht : s.Scopes t) (h : outcome (minimize t) s = (.ok u, r)) :
    ∃ u' r' tree ρ, outcome (minimize u) r = (.ok u', r') ∧ r'.resolve u = some tree ∧
      r'.resolve u' = some (tree.rename ρ) ∧ ∀ i ∈ tree.vars, r'.nameOf (ρ i) = r'.nameOf i := by
  obtain ⟨hplain, names, hfree, hn⟩ := (minimize_returns_iff hs).mp ⟨u, r, h⟩
  rw [hplain.free hs] at hfree
  cases hfree
  obtain ⟨v, q, hadds, hout, hv, -, hlt, hnames⟩ :=
    minimize_copy hs hplain (fun i hi => (hs.chained.leaf ht hi).1) rfl hn
  rw [h] at hout
  cases hout
  -- The letters that the first renaming used are the names in order, so each stands for itself.
  have hkeys := (Term.sortedNames_eq (letters_sorted.sublist (take_sublist _ _)) hnames).symm
  obtain ⟨u', r', hadds', hout', -, ⟨tree, htree, hrenamed, hvars⟩, -, -⟩ :=
    minimize_copy (hadds.settled hs) hv hlt hkeys (length_take_le' _ _)
  rw [length_take_of_le hn] at hadds'
  refine ⟨u', r', tree, _, hout', htree, hrenamed, fun i hi => ?_⟩
  have hleaf := hvars i hi
  have hmem := (hnames _).mpr (mem_map_of_mem hleaf)
  rw [← hadds'.nameOf_old (hlt i hleaf)] at hmem
  have hmoved := nameOf_moved hadds' rfl hmem
  rw [getElem?_eq_getElem (idxOf_lt_length_of_mem hmem), getElem_idxOf] at hmoved
  exact (Option.some.inj hmoved).symm

/-- **Copies are renamings, and what can be copied.** In a store without cycles, names are replaced by variables in
exactly the types whose rows end where they stand. If these variables lead to unbound ones, the copy resolves to the
tree of the type with its variables renamed. So the scheme of such a type, used once, gives a copy in which the
variables that the context mentions are kept and the others are replaced by new ones, one for each name. Renaming to
letters returns for exactly those of these types that have at most 26 names of variables; renaming once more gives each
variable a new one of its name. -/
theorem subst_renames {s : TypeStore} {t : Ty} (hs : s.Settled) (ht : s.Scopes t) :
    (∀ names, ToVariables names → ((∃ u r, outcome (subst t names) s = (.ok u, r)) ↔ s.Plain t) ∧
      ∀ u r, outcome (subst t names) s = (.ok u, r) → r = s ∧ (s.Renames names →
        ∃ tree, s.resolve t = some tree ∧ s.resolve u = some (tree.rename (s.renamed names)))) ∧
    (∀ ctx fixed, outcome (freeInContext ctx) s = (.ok fixed, s) →
      ((∃ u r, outcome (generalize t ctx >>= instantiate) s = (.ok u, r)) ↔ s.Plain t) ∧
      ∀ u r, outcome (generalize t ctx >>= instantiate) s = (.ok u, r) →
        ∃ tree ρ, r.resolve t = some tree ∧ r.resolve u = some (tree.rename ρ) ∧ Freshens s r fixed tree.vars ρ) ∧
    ((∃ u r, outcome (minimize t) s = (.ok u, r)) ↔
      s.Plain t ∧ ∃ names, s.free t = .ok names ∧ (Term.sortedNames names).length ≤ 26) ∧
    ∀ u r, outcome (minimize t) s = (.ok u, r) →
      ∃ u' r' tree ρ, outcome (minimize u) r = (.ok u', r') ∧ r'.resolve u = some tree ∧
        r'.resolve u' = some (tree.rename ρ) ∧ ∀ i ∈ tree.vars, r'.nameOf (ρ i) = r'.nameOf i := by
  refine ⟨fun names hnames => ⟨subst_returns_iff hnames hs, fun u r hret => ?_⟩,
    fun ctx fixed hctx => ⟨use_returns_iff hs hctx, fun u r => use_freshens hs ht hctx⟩,
    minimize_returns_iff hs, fun u r => minimize_again hs ht⟩
  have hplain := (subst_returns_iff hnames hs).mp ⟨u, r, hret⟩
  rw [subst_copy hplain hnames hs] at hret
  cases hret
  exact ⟨rfl, fun hrenames => (hplain.copied hrenames hs (s.extent_lt_weight t)).2.1⟩

/-- Two unbound variables, and an open row of the one that ends in the other. -/
def labelled : TypeStore := { vars := #[⟨"a", none⟩, ⟨"r", none⟩] }

def labelledRow : Ty := .row [("x", .var 0)] (.var 1)

/-- The row can be renamed to letters, and where the context mentions `a`, a use of its scheme replaces `r` only. -/
theorem labelledRow_renames : labelled.Settled ∧ labelled.Scopes labelledRow ∧
    (∃ u r, outcome (minimize labelledRow) labelled = (.ok u, r)) ∧
    ∃ u r tree ρ, outcome (generalize labelledRow [("y", { ty := .var 0 })] >>= instantiate) labelled = (.ok u, r) ∧
      r.resolve labelledRow = some tree ∧ r.resolve u = some (tree.rename ρ) ∧
      Freshens labelled r ["a"] tree.vars ρ := by
  have hs : labelled.Settled := settled_of_forward (by decide)
  have ht : labelled.Scopes labelledRow := by unfold Scopes; decide
  have hplain : labelled.Plain labelledRow := by
    refine ⟨rfl, fun u hu => ?_⟩
    have hu : u ∈ [Ty.var 1, Ty.var 0] := hu
    obtain rfl | rfl : u = .var 1 ∨ u = .var 0 := by simpa using hu
    · exact ⟨rfl, fun v hv => by cases hv⟩
    · exact ⟨rfl, fun v hv => by cases hv⟩
  obtain ⟨-, huse, hletters, -⟩ := subst_renames hs ht
  obtain ⟨hreturns, hfreshens⟩ := huse [("y", { ty := .var 0 })] ["a"] rfl
  obtain ⟨u, r, hret⟩ := hreturns.mpr hplain
  obtain ⟨tree, ρ, h⟩ := hfreshens u r hret
  refine ⟨hs, ht, hletters.mpr ⟨hplain, ["a", "r"], rfl, ?_⟩, u, r, tree, ρ, hret, h⟩
  rw [Term.sortedNames, length_mergeSort]
  decide

/-- A variable that is bound to an open row, and the variable that this row ends in. -/
def twoPieces : TypeStore := { vars := #[⟨"r", some (.row [("x", .int)] (.var 1))⟩, ⟨"q", none⟩] }

def twoPieceRow : Ty := .row [("y", .int)] (.var 0)

/-- A row that goes on in a bound variable resolves to a tree, but it cannot be copied. -/
theorem twoPieceRow_not_copied : twoPieces.Settled ∧ twoPieces.Scopes twoPieceRow ∧
    twoPieces.resolve twoPieceRow = some (.row [("x", .con "int" []), ("y", .con "int" [])] (some 1)) ∧
    outcome (subst twoPieceRow []) twoPieces = (.error .restNotVariable, twoPieces) ∧
    ∀ u r, outcome (minimize twoPieceRow) twoPieces ≠ (.ok u, r) := by
  have hs : twoPieces.Settled := settled_of_forward (by decide)
  refine ⟨hs, by unfold Scopes; decide, ?_, rfl, fun u r hret => ?_⟩
  · have hfields : inKeyOrder [("x", Ty.int), ("y", Ty.int)] = [("x", Ty.int), ("y", Ty.int)] :=
      mergeSort_of_pairwise (by decide)
    have hexpand : ∀ n, twoPieces.expand (n + 2) twoPieceRow =
        .row [("x", .con "int" []), ("y", .con "int" [])] (some 1) := fun n => by
      show Resolved.row ((inKeyOrder [("x", Ty.int), ("y", Ty.int)]).map _) (some 1) = _
      rw [hfields]
      rfl
    have hweight : twoPieces.weight twoPieceRow = 9 := rfl
    rw [resolve, hweight, hexpand 7]
    rfl
  · obtain ⟨⟨here, -⟩, -⟩ := (minimize_returns_iff hs).mp ⟨u, r, hret⟩
    exact absurd here (by decide)

end TypeM

end Scrap
