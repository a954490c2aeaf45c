import Scrap.Types.Scheme
import Scrap.Proofs.Types.Unification

/-! # Walks through types come to an end

In a store without cycles no walk runs out of fuel: each goes on with types of less extent. -/

namespace Scrap

open List

variable {names : List String} {x : String} {t u : Ty} {β : Type} {s : TypeStore} {i n : Nat}

section Failures
variable {ε α : Type} {e : ε}

theorem bind_ne_error {x : Except ε α} {f : α → Except ε β} (hx : x ≠ .error e) (hf : ∀ a, x = .ok a → f a ≠ .error e) :
    (x >>= f) ≠ .error e := by
  cases x with
  | error e' => exact fun h => hx (by cases h; rfl)
  | ok a => exact hf a rfl

theorem mapM_ne_error {f : α → Except ε β} {l : List α} (h : ∀ a ∈ l, f a ≠ .error e) : l.mapM f ≠ .error e := by
  induction l with
  | nil =>
    intro h
    cases h
  | cons a l ih =>
    rw [mapM_cons]
    refine bind_ne_error (h a (.head _)) fun b _ => ?_
    refine bind_ne_error (ih fun a ha => h a (.tail _ ha)) fun bs _ h => ?_
    cases h

end Failures

namespace TypeStore

theorem Settled.flatten_here (hs : s.Settled) {fields : Dict Ty} {rest z : Ty} (h : s.find u = .row fields rest)
    (hz : s.find rest = z) (hends : z = .emptyRow ∨ ∃ i, z = .var i) :
    s.flatten u = .ok (Dict.ofEntries fields, z) := by
  rw [hs.flatten_of_row h]
  rcases hends with rfl | ⟨i, rfl⟩
  · rw [flatten_of_emptyRow hz]
    rfl
  · rw [flatten_of_var hz]
    rfl

theorem Settled.flatten_open (hs : s.Settled) (hi : s.bound? i = none) (fields : Dict Ty) :
    s.flatten (.row fields (.var i)) = .ok (Dict.ofEntries fields, .var i) :=
  hs.flatten_here (find_of_not_var rfl) (find_unbound hi) (.inr ⟨i, rfl⟩)

theorem Settled.flattenWithin_ends (hs : s.Settled) (hn : s.extent u < n) :
    s.flattenWithin n u ≠ .error .outOfFuel := by
  induction n generalizing u with
  | zero => omega
  | succ n ih =>
    rw [flattenWithin]
    cases hu : s.find u with
    | row fields rest =>
      have hlt := hs.extent_rest_lt hu
      refine bind_ne_error (ih (by omega)) fun p _ h => ?_
      cases h
    | var | con | emptyRow | bare =>
      intro h
      cases h

theorem Settled.flatten_ends (hs : s.Settled) (u : Ty) : s.flatten u ≠ .error .outOfFuel :=
  hs.flattenWithin_ends (s.extent_lt_weight u)

theorem Settled.textWithin_ends (hs : s.Settled) (hn : s.extent u < n) : s.textWithin n u ≠ .error .outOfFuel := by
  induction n generalizing u with
  | zero => omega
  | succ n ih =>
    cases u with
    | con name args =>
      refine bind_ne_error (mapM_ne_error fun v hv => ?_) fun texts _ => ?_
      · have hlt : s.extent v < s.extent (.con name args) := extent_part_lt hv
        exact ih (by omega)
      · split <;> simp [pure, Except.pure]
    | row fields rest =>
      -- The walk goes on with the types of the whole table, not only with those of the row itself.
      refine bind_ne_error (hs.flatten_ends _) fun p hp => ?_
      refine bind_ne_error (mapM_ne_error fun q hq => ?_) fun texts _ h => by cases h
      have hlt := (flat_of_flatten hp).extent_lt hs q (mem_inKeyOrder.mp hq)
      exact bind_ne_error (ih (by omega)) fun _ _ h => by cases h
    | var | emptyRow | bare =>
      intro h
      cases h

theorem Settled.text_ends (hs : s.Settled) (u : Ty) : s.text u ≠ .error .outOfFuel :=
  hs.textWithin_ends (s.extent_lt_weight u)

theorem Settled.freeWithin_ends (hs : s.Settled) (hn : s.extent u < n) : s.freeWithin n u ≠ .error .outOfFuel := by
  induction n generalizing u with
  | zero => omega
  | succ n ih =>
    rw [freeWithin]
    have part : ∀ v ∈ (s.find u).parts, s.freeWithin n v ≠ .error .outOfFuel := fun v hv =>
      ih (Nat.lt_of_lt_of_le (hs.extent_found_lt hv) (Nat.le_of_lt_succ hn))
    cases hu : s.find u with
    | con name args =>
      exact bind_ne_error (mapM_ne_error fun v hv => part v (hu ▸ hv)) fun _ _ h => by cases h
    | row fields rest =>
      refine bind_ne_error (mapM_ne_error fun p hp => part p.2 (hu ▸ .tail _ (mem_map_of_mem hp))) fun _ _ => ?_
      exact bind_ne_error (part rest (hu ▸ rest_mem_parts fields rest)) fun _ _ h => by cases h
    | var | emptyRow | bare =>
      intro h
      cases h

theorem Settled.free_ends (hs : s.Settled) (u : Ty) : s.free u ≠ .error .outOfFuel :=
  hs.freeWithin_ends (s.extent_lt_weight u)

/-! ### New variables -/

/-- The second store has new, unbound variables of the given names behind those of the first. -/
def Adds (s : TypeStore) (names : List String) (t : TypeStore) : Prop :=
  t.vars = s.vars ++ (names.map fun name => (⟨name, none⟩ : TypeVar)).toArray

section Adds
variable {t : TypeStore}

theorem Adds.refl (s : TypeStore) : s.Adds [] s := by simp [Adds]

variable (h : s.Adds names t)
include h

theorem Adds.trans {r : TypeStore} {more : List String} (h' : t.Adds more r) :
    s.Adds (names ++ more) r := by
  rw [Adds] at h h' ⊢
  simp [h', h]

theorem Adds.size : t.vars.size = s.vars.size + names.length := by
  rw [Adds] at h
  simp [h]

theorem Adds.getD_old (hi : i < s.vars.size) (v : TypeVar) :
    t.vars.getD i v = s.vars.getD i v := by
  rw [Adds] at h
  simp [h, Array.getD_eq_getD_getElem?, Array.getElem?_append, hi]

theorem Adds.getD_new (hi : names[i]? = some x) (v : TypeVar) :
    t.vars.getD (s.vars.size + i) v = ⟨x, none⟩ := by
  rw [Adds] at h
  simp [h, Array.getD_eq_getD_getElem?, Array.getElem?_append, hi]

theorem Adds.bound? (i : Nat) : t.bound? i = s.bound? i := by
  by_cases hi : i < s.vars.size
  · rw [TypeStore.bound?, TypeStore.bound?, h.getD_old hi]
  · rw [bound?_of_size_le (Nat.not_lt.mp hi)]
    by_cases hj : i < t.vars.size
    · obtain ⟨k, rfl⟩ : ∃ k, i = s.vars.size + k := ⟨i - s.vars.size, by omega⟩
      have hk : k < names.length := by
        rw [h.size] at hj
        omega
      rw [TypeStore.bound?, h.getD_new (getElem?_eq_getElem hk)]
    · exact bound?_of_size_le (Nat.not_lt.mp hj)

theorem Adds.nameOf_old (hi : i < s.vars.size) : t.nameOf i = s.nameOf i := by
  rw [nameOf, nameOf, h.getD_old hi]

theorem Adds.nameOf_new (hi : names[i]? = some x) : t.nameOf (s.vars.size + i) = x := by
  rw [nameOf, h.getD_new hi]

theorem Adds.extends : t.Extends s :=
  ⟨by rw [h.size]; omega, fun i u hi => (h.bound? i).trans hi⟩

theorem Adds.settled (hs : s.Settled) : t.Settled := by
  refine ⟨fun i u hi => h.extends.scopes (hs.closed i u (by rwa [h.bound?] at hi)), fun i hi => hs.acyclic i ?_⟩
  refine Relation.TransGen.mono (fun j k hjk => ?_) i i hi
  obtain ⟨u, hu, hk⟩ := hjk
  exact ⟨u, by rwa [h.bound?] at hu, hk⟩

end Adds

end TypeStore

namespace TypeM
open TypeStore
variable {α : Type}

/-! ### Computations that only read the store -/

theorem outcome_reading (f : TypeStore → Except TypingError α) (s : TypeStore) : outcome (reading f) s = (f s, s) := by
  unfold reading
  rw [bind_ok (m := get) (a := s) (t := s) rfl]
  cases f s <;> rfl

theorem outcome_free (t : Ty) (s : TypeStore) : outcome (free t) s = (s.free t, s) := outcome_reading _ s

/-- The computation leaves the store as it is and does not fail for want of fuel. -/
def Reads (m : TypeM α) (s : TypeStore) : Prop := ∃ r, outcome m s = (r, s) ∧ r ≠ .error .outOfFuel

section Reads
variable {m : TypeM α}

theorem Reads.pure (a : α) : Reads (Pure.pure a) s := ⟨.ok a, rfl, by simp⟩

theorem Reads.throw {e : TypingError} (he : e ≠ .outOfFuel) : Reads (MonadExcept.throw e : TypeM α) s :=
  ⟨.error e, rfl, by simpa using he⟩

theorem Reads.bind {f : α → TypeM β} (h : Reads m s) (hf : ∀ a, outcome m s = (.ok a, s) → Reads (f a) s) :
    Reads (m >>= f) s := by
  obtain ⟨e | a, hm, hr⟩ := h
  · exact ⟨.error e, by rw [outcome_bind, hm], by simpa using hr⟩
  · obtain ⟨r, hf, hr⟩ := hf a hm
    exact ⟨r, by rw [bind_ok hm, hf], hr⟩

theorem Reads.mapM {f : α → TypeM β} {l : List α} (h : ∀ a ∈ l, Reads (f a) s) : Reads (l.mapM f) s := by
  induction l with
  | nil => exact Reads.pure []
  | cons a l ih =>
    rw [mapM_cons]
    refine (h a (.head _)).bind fun b _ => ?_
    exact (ih fun a ha => h a (.tail _ ha)).bind fun bs _ => Reads.pure _

end Reads

theorem row_reads (fields : Dict Ty) (rest : Ty) : Reads (row fields rest) s := by
  unfold row
  split
  · exact Reads.throw (by simp)
  · exact Reads.pure _

theorem substWithin_reads (hs : s.Settled) (names : Dict Ty) (hn : s.extent u < n) :
    Reads (substWithin names n u) s := by
  induction n generalizing u with
  | zero => omega
  | succ n ih =>
    have part : ∀ v ∈ (s.find u).parts, Reads (substWithin names n v) s := fun v hv =>
      ih (Nat.lt_of_lt_of_le (hs.extent_found_lt hv) (Nat.le_of_lt_succ hn))
    refine Reads.bind (m := find u) ⟨.ok (s.find u), rfl, by simp⟩ fun v hv => ?_
    obtain ⟨rfl, -⟩ := find_returns hv
    cases hu : s.find u with
    | var i => exact Reads.bind (m := get) ⟨.ok s, rfl, by simp⟩ fun _ _ => Reads.pure _
    | con name args =>
      exact (Reads.mapM fun v hv => part v (hu ▸ hv)).bind fun _ _ => Reads.pure _
    | row fields rest =>
      have hfields : Reads (fields.mapM fun p => return (p.1, ← substWithin names n p.2)) s :=
        Reads.mapM fun p hp => (part p.2 (hu ▸ .tail _ (mem_map_of_mem hp))).bind fun _ _ => Reads.pure _
      refine (part rest (hu ▸ rest_mem_parts fields rest)).bind fun r _ => ?_
      cases r with
      | var | emptyRow => exact hfields.bind fun _ _ => row_reads _ _
      | con | row | bare => exact Reads.throw (by simp)
    | emptyRow => exact Reads.pure _
    | bare => exact Reads.throw (by simp)

theorem subst_reads (hs : s.Settled) (t : Ty) (names : Dict Ty) : Reads (subst t names) s :=
  Reads.bind (m := get) ⟨.ok s, rfl, by simp⟩ fun r hr => by
    cases hr
    exact substWithin_reads hs names (s.extent_lt_weight t)

/-! ### Naming new variables -/

theorem number_of_name {lead : String} {m : Nat} (h : lead ++ toString m = lead ++ toString n) : m = n := by
  have hdigits : (toString m).toList = (toString n).toList := by
    simpa [String.toList_append] using congrArg String.toList h
  simpa using congrArg (Nat.ofDigitChars 10 · 0) hdigits

def numbered (n : Nat) (keys : List String) : Dict Ty := (keys.zipIdx n).map fun p => (p.1, .var p.2)

theorem numbered_cons (n : Nat) (k : String) (keys : List String) :
    numbered n (k :: keys) = (k, .var n) :: numbered (n + 1) keys := rfl

theorem naming_loop (new : α → TypeM Ty) (label : α → String → Prop) (key : α → String)
    (hnew : ∀ x r, ∃ name r', outcome (new x) r = (.ok (.var r.vars.size), r') ∧ r.Adds [name] r' ∧ label x name)
    (l : List α) (names : Dict Ty) (s : TypeStore) :
    ∃ labels t, outcome (forIn l names fun x (d : Dict Ty) => do return .yield (Dict.set d (key x) (← new x))) s =
      (.ok (names.merge (numbered s.vars.size (l.map key))), t) ∧ s.Adds labels t ∧ Forall₂ label l labels := by
  induction l generalizing names s with
  | nil => exact ⟨[], s, rfl, Adds.refl s, .nil⟩
  | cons x l ih =>
    obtain ⟨name, r, hx, hadds, hlabel⟩ := hnew x s
    obtain ⟨labels, t, hl, hadds', hlabels⟩ := ih (Dict.set names (key x) (.var s.vars.size)) r
    refine ⟨name :: labels, t, ?_, hadds.trans hadds', hlabels.cons hlabel⟩
    rw [forIn_cons, bind_assoc, bind_ok hx]
    rw [hadds.size] at hl
    exact hl

theorem letters_loop (keys : List (String × String)) (s : TypeStore) :
    ∃ t, outcome (forIn keys ([] : Dict Ty) fun p d => do return .yield (Dict.set d p.1 (← newVar p.2))) s =
      (.ok (Dict.ofEntries (numbered s.vars.size (keys.map Prod.fst))), t) ∧ s.Adds (keys.map Prod.snd) t := by
  obtain ⟨labels, t, h, hadds, hlabels⟩ := naming_loop (fun p => newVar p.2) (fun p name => name = p.2) Prod.fst
    (fun p r => ⟨p.2, _, rfl, by simp [Adds], rfl⟩) keys [] s
  have heq : Forall₂ Eq labels (keys.map Prod.snd) := forall₂_map_right_iff.mpr hlabels.flip
  rw [forall₂_eq_eq_eq] at heq
  exact ⟨t, h, heq ▸ hadds⟩

theorem minimize_tooMany (h : s.free t = .ok names) (hn : letters.length < (Term.sortedNames names).length) :
    outcome (minimize t) s = (.error .tooManyVariables, s) := by
  unfold minimize
  rw [bind_ok ((outcome_free t s).trans (congrArg (·, s) h))]
  simp only [if_pos hn]
  rfl

theorem minimize_subst (h : s.free t = .ok names)
    (hn : (Term.sortedNames names).length ≤ letters.length) :
    ∃ s', s.Adds (letters.take (Term.sortedNames names).length) s' ∧ outcome (minimize t) s =
      outcome (subst t (Dict.ofEntries (numbered s.vars.size (Term.sortedNames names)))) s' := by
  obtain ⟨s', hloop, hadds⟩ := letters_loop ((Term.sortedNames names).zip letters) s
  rw [map_fst_zip hn] at hloop
  have hsnd : ((Term.sortedNames names).zip letters).map Prod.snd = letters.take (Term.sortedNames names).length := by
    rw [zip_eq_zip_take_min, Nat.min_eq_left hn, take_length, map_snd_zip (by simp)]
  rw [hsnd] at hadds
  refine ⟨s', hadds, ?_⟩
  unfold minimize
  rw [bind_ok ((outcome_free t s).trans (congrArg (·, s) h))]
  simp only [if_neg (Nat.not_lt.mpr hn)]
  exact bind_ok hloop

theorem minimize_ends (hs : s.Settled) (t : Ty) : (outcome (minimize t) s).1 ≠ .error .outOfFuel := by
  cases h : s.free t with
  | error e =>
    have he : e ≠ .outOfFuel := fun he => hs.free_ends t (he ▸ h)
    unfold minimize
    rw [outcome_bind, outcome_free, h]
    simpa using he
  | ok names =>
    rcases Nat.lt_or_ge letters.length (Term.sortedNames names).length with hn | hn
    · rw [minimize_tooMany h hn]
      simp
    · obtain ⟨s', hadds, heq⟩ := minimize_subst h hn
      obtain ⟨r, hr, hne⟩ := subst_reads (hadds.settled hs) t
        (Dict.ofEntries (numbered s.vars.size (Term.sortedNames names)))
      rw [heq, hr]
      exact hne

end TypeM

end Scrap
