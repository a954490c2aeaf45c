import Scrap.Proofs.Types.Walks

/-! # Calls of unification

A call of unification binds a variable, fails, returns, or goes on with calls on arguments, on shared fields, and on
what two rows go on with. So a run is made of two kinds of steps, a new variable and a binding, and stays among the
variables that the two types lead to. -/

namespace Scrap

open List

/-- Some of the calls of unification. -/
abbrev CallSet := TypeStore → Ty → Ty → Prop

variable {fs gs ls ms : Dict Ty} {C : Finset Nat} {ts : List Ty} {q r u z : Ty} {g : Ty → Ty → TypeM Unit}
  {m : TypeM Unit} {Risk : CallSet} {ps : List (Ty × Ty)} {i : Nat} {a b : Ty}

/-! ### Regions of a store -/

namespace Ty
variable {D : Finset Nat} {t : Ty}

theorem parts_induction {P : Ty → Prop} (h : ∀ t, (∀ u ∈ t.parts, P u) → P t) (t : Ty) : P t := by
  induction hn : t.size using Nat.strong_induction_on generalizing t with
  | _ n ih => exact h t fun u hu => ih u.size (hn ▸ size_lt_of_part hu) u rfl

def Among (C : Finset Nat) (t : Ty) : Prop := ∀ i ∈ t.vars, i ∈ C

theorem Among.mono (h : t.Among C) (hCD : C ⊆ D) : t.Among D := fun i hi => hCD (h i hi)

theorem Among.part (h : t.Among C) (hu : u ∈ t.parts) : u.Among C := fun i hi => h i (vars_of_part hu hi)

theorem among_var : (Ty.var i).Among C ↔ i ∈ C := by simp [Among, vars]

theorem among_row {fields : Dict Ty} {rest : Ty} (h : ∀ p ∈ fields, p.2.Among C) (hr : rest.Among C) :
    (Ty.row fields rest).Among C := by
  intro i hi
  rw [vars, mem_append, mem_varsFields] at hi
  rcases hi with ⟨p, hp, hi⟩ | hi
  · exact h p hp i hi
  · exact hr i hi

end Ty

namespace TypeStore

/-- A region that bindings do not lead out of. -/
structure Encloses (s : TypeStore) (C : Finset Nat) : Prop where
  lt : ∀ i ∈ C, i < s.vars.size
  closed : ∀ i ∈ C, ∀ t, s.bound? i = some t → t.Among C

/-- A region together with the variables that were added to the store since. -/
def grown (C : Finset Nat) (s t : TypeStore) : Finset Nat := C ∪ Finset.Ico s.vars.size t.vars.size

section Regions
variable {s t r : TypeStore}

theorem Closed.encloses (h : s.Closed) : s.Encloses (Finset.range s.vars.size) :=
  ⟨fun _ => Finset.mem_range.mp, fun i _ t hi j hj => Finset.mem_range.mpr (h i t hi j hj)⟩

theorem Scopes.among (h : s.Scopes u) : u.Among (Finset.range s.vars.size) := fun i hi => Finset.mem_range.mpr (h i hi)

theorem Encloses.scopes (h : s.Encloses C) (hu : u.Among C) : s.Scopes u := fun i hi => h.lt i (hu i hi)

theorem Chained.among_find (hs : s.Chained) (hC : s.Encloses C) (h : u.Among C) : (s.find u).Among C :=
  hs.find_keeps (fun i v hi h => hC.closed i (Ty.among_var.mp h) v hi) h

theorem Flat.among (h : s.Flat u fs z) (hs : s.Chained) (hC : s.Encloses C) (hu : u.Among C) :
    z.Among C ∧ ∀ p ∈ fs, p.2.Among C := by
  induction h with
  | ends h _ => exact ⟨h ▸ hs.among_find hC hu, by simp⟩
  | row h _ ih =>
    have hrow := hs.among_find hC hu
    rw [h] at hrow
    obtain ⟨hz, hfs⟩ := ih (hrow.part (by simp [Ty.parts]))
    refine ⟨hz, fun p hp => ?_⟩
    rcases Dict.mem_merge hp with hp | hp
    · exact hfs p hp
    · exact hrow.part (.tail _ (mem_map_of_mem hp))

theorem Flat.unbound (h : s.Flat u fs (.var i)) (hs : s.Chained) : s.bound? i = none := by
  generalize hz : Ty.var i = z at h
  induction h with
  | ends h _ => exact hs.unbound_of_find (h.trans hz.symm)
  | row _ _ ih => exact ih hz

theorem subset_grown : C ⊆ grown C s t := Finset.subset_union_left

theorem grown_self : grown C s s = C := by simp [grown]

theorem grown_grown (hst : s.vars.size ≤ t.vars.size) (htr : t.vars.size ≤ r.vars.size) :
    grown (grown C s t) t r = grown C s r := by
  rw [grown, grown, grown, Finset.union_assoc, Finset.Ico_union_Ico_eq_Ico hst htr]

theorem mem_grown : i ∈ grown C s t ↔ i ∈ C ∨ s.vars.size ≤ i ∧ i < t.vars.size := by
  simp [grown]

end Regions

/-! ### The occurs check -/

section Occurs
variable {s : TypeStore} {v : Ty}

theorem occursField_eq (v : Ty) (fs : List (String × Ty)) : s.occursField v fs = s.occursAny v (fs.map Prod.snd) := by
  induction fs with
  | nil => rfl
  | cons p fs ih =>
    show (do if ← s.occurs v p.2 then return true else s.occursField v fs) = _
    rw [ih]
    rfl

theorem occurs_row (v : Ty) (fields : List (String × Ty)) (rest : Ty) :
    s.occurs v (.row fields rest) = s.occursAny v (fields.map Prod.snd ++ [rest]) := by
  rw [occurs, occursField_eq]
  induction fields.map Prod.snd with
  | nil =>
    show s.occurs v rest = (do if ← s.occurs v rest then return true else return false)
    cases s.occurs v rest with
    | error e => rfl
    | ok b => cases b <;> rfl
  | cons t ts ih =>
    rw [cons_append, occursAny, occursAny, ← ih]
    cases s.occurs v t with
    | error e => rfl
    | ok b => cases b <;> rfl

theorem occursAny_ne_error {e : TypingError} (h : ∀ t ∈ ts, s.occurs v t ≠ .error e) : s.occursAny v ts ≠ .error e := by
  induction ts with
  | nil =>
    intro h
    cases h
  | cons t ts ih =>
    refine bind_ne_error (h t (.head _)) fun b _ => ?_
    cases b with
    | true =>
      intro h
      cases h
    | false => exact ih fun t ht => h t (.tail _ ht)

theorem occurs_ends (s : TypeStore) (v t : Ty) : s.occurs v t ≠ .error .outOfFuel := by
  induction t using Ty.parts_induction with
  | h t ih =>
    cases t with
    | con name args => exact occursAny_ne_error ih
    | row fields rest =>
      rw [occurs_row]
      refine occursAny_ne_error fun u hu => ih u ?_
      simpa [Ty.parts, or_comm] using hu
    | var | emptyRow | bare =>
      intro h
      cases h

theorem same_unbound {j : Nat} (hi : s.bound? i = none) (h : s.same (.var i) (.var j) = true) :
    s.nameOf i = s.nameOf j ∧ s.bound? j = none := by
  have hw := s.extent_lt_weight (.var i)
  obtain ⟨n, hn⟩ : ∃ n, s.weight (.var i) + s.weight (.var j) = n + 1 :=
    ⟨s.weight (.var i) + s.weight (.var j) - 1, by omega⟩
  rw [same, hn, sameWithin, hi] at h
  cases hj : s.bound? j <;> simp_all

end Occurs
end TypeStore

namespace TypeM
open TypeStore

/-! ### What one call does -/

/-- The variable that a call binds, and the type that it is bound to. -/
def binds? : Ty → Ty → Option (Nat × Ty)
  | .var i, t => some (i, t)
  | t, .var i => some (i, t)
  | _, _ => none

def unifyAll (f : Ty → Ty → TypeM Unit) (ps : List (Ty × Ty)) : TypeM Unit := ps.forM fun p => f p.1 p.2

/-- The types that two tables have under the same keys, in the order of the keys. -/
def shared (fs gs : Dict Ty) : List (Ty × Ty) := (inKeyOrder fs).filterMap fun p => (gs.get? p.1).map (p.2, ·)

/-- The calls that give two rows the fields they lack, where `z` is a new variable. -/
def closing (ls ms : Dict Ty) (r q z : Ty) : List (Ty × Ty) :=
  match ls, ms with
  | [], [] => [(r, q)]
  | [], ms => [(q, .row ms r)]
  | ls, [] => [(r, .row ls q)]
  | ls, ms => [(r, .row ls z), (q, .row ms z)]

/-- The store in which these calls are made: it has a new variable if both rows lack fields. -/
def closingStore (ls ms : Dict Ty) (s : TypeStore) : TypeStore :=
  if ls = [] ∨ ms = [] then s else s.withFresh ("t" ++ toString s.counter)

/-- Two types, neither of them a variable, that no binding makes equal. -/
inductive Clash (s : TypeStore) : Ty → Ty → Prop
  | con {m n : String} {as bs : List Ty} (h : ¬ (m = n ∧ as.length = bs.length)) : Clash s (.con m as) (.con n bs)
  | stuck {fields fields' : Dict Ty} {rest rest' : Ty}
    (h : (∃ e, s.flatten (.row fields rest) = .error e) ∨ ∃ e, s.flatten (.row fields' rest') = .error e) :
    Clash s (.row fields rest) (.row fields' rest')
  | forms {a b : Ty} (ha : a.isVar = false) (hb : b.isVar = false) (h : a.kind ≠ b.kind) : Clash s a b
  | bare : Clash s .bare .bare

/-- What a call on two types comes to that chains of variables have led to. -/
inductive Turn (s : TypeStore) (a b : Ty) : Prop
  | bind (i : Nat) (t : Ty) (h : binds? a b = some (i, t)) (eq : ∀ f, unifyFound f a b = bindVar (.var i) t)
  | args (name : String) (as bs : List Ty) (ha : a = .con name as) (hb : b = .con name bs)
    (hlen : as.length = bs.length) (eq : ∀ f, unifyFound f a b = unifyAll f (as.zip bs))
  | rows (fields fields' fs gs : Dict Ty) (rest rest' r q : Ty) (ha : a = .row fields rest)
    (hb : b = .row fields' rest')
    (hfs : s.flatten a = .ok (fs, r)) (hgs : s.flatten b = .ok (gs, q))
    (eq : ∀ f, outcome (unifyFound f a b) s = outcome (do
      unifyAll f (shared fs gs)
      closeRows f (missing fs gs) (missing gs fs) r q) s)
  | done (ha : a = .emptyRow) (hb : b = .emptyRow) (eq : ∀ f, unifyFound f a b = pure ())
  | fail (e : TypingError) (h : Clash s a b) (eq : ∀ f, outcome (unifyFound f a b) s = (.error e, s))
    (he : s.Settled → e ≠ .outOfFuel)

section Turns
variable {s : TypeStore} {f : Ty → Ty → TypeM Unit}

theorem unifyAll_cons (p : Ty × Ty) (ps : List (Ty × Ty)) : unifyAll f (p :: ps) = (do f p.1 p.2; unifyAll f ps) := rfl

theorem unifyAll_one (a b : Ty) : unifyAll f [(a, b)] = f a b := bind_pure_unit

theorem closing_both (h : ¬ (ls = [] ∨ ms = [])) (r q z : Ty) :
    closing ls ms r q z = [(r, .row ls z), (q, .row ms z)] := by
  obtain _ | ⟨l, ls⟩ := ls
  · simp at h
  · obtain _ | ⟨m, ms⟩ := ms
    · simp at h
    · rfl

theorem closing_fst {p : Ty × Ty} (h : p ∈ closing ls ms r q z) : p.1 = r ∨ p.1 = q := by
  obtain _ | ⟨l, ls⟩ := ls <;> obtain _ | ⟨m, ms⟩ := ms <;>
    simp only [closing, mem_cons, not_mem_nil, or_false] at h
  · exact .inl (h ▸ rfl)
  · exact .inr (h ▸ rfl)
  · exact .inl (h ▸ rfl)
  · rcases h with h | h
    · exact .inl (h ▸ rfl)
    · exact .inr (h ▸ rfl)

theorem forM_unifyField (f : Ty → Ty → TypeM Unit) (fs gs : Dict Ty) :
    (inKeyOrder fs).forM (unifyField f gs) = unifyAll f (shared fs gs) := by
  unfold shared
  induction inKeyOrder fs with
  | nil => rfl
  | cons p fs ih =>
    show (do unifyField f gs p; fs.forM (unifyField f gs)) = _
    rw [ih, unifyField, filterMap_cons]
    cases gs.get? p.1 <;> rfl

theorem outcome_closeRows (f : Ty → Ty → TypeM Unit) (ls ms : Dict Ty) (r q : Ty) (s : TypeStore) : outcome
    (closeRows f ls ms r q) s = outcome (unifyAll f (closing ls ms r q (.var s.vars.size))) (closingStore ls ms s) := by
  obtain _ | ⟨l, ls⟩ := ls
  · obtain _ | ⟨m, ms⟩ := ms
    · exact (congrArg (outcome · s) (unifyAll_one r q)).symm
    · exact (congrArg (outcome · s) (unifyAll_one q (.row (m :: ms) r))).symm
  · obtain _ | ⟨m, ms⟩ := ms
    · exact (congrArg (outcome · s) (unifyAll_one r (.row (l :: ls) q))).symm
    · refine (bind_ok (m := fresh) (a := .var s.vars.size) rfl).trans ?_
      show outcome (do f r (.row (l :: ls) (.var s.vars.size)); f q (.row (m :: ms) (.var s.vars.size))) _ =
        outcome (do f r (.row (l :: ls) (.var s.vars.size)); unifyAll f [(q, .row (m :: ms) (.var s.vars.size))]) _
      rw [unifyAll_one]
      rfl

/-- The computation fails, leaves the store as it is, and in a store without cycles has not run out of fuel. -/
def Refuses (m : TypeM Unit) (s : TypeStore) : Prop :=
  ∃ e, outcome m s = (.error e, s) ∧ (s.Settled → e ≠ .outOfFuel)

theorem Refuses.throw {e : TypingError} (he : e ≠ .outOfFuel) : Refuses (MonadExcept.throw e) s := ⟨e, rfl, fun _ => he⟩

theorem Refuses.text {k : String → TypeM Unit} (h : ∀ x, Refuses (k x) s) (u : Ty) :
    Refuses (TypeM.text u >>= k) s := by
  have htext : outcome (TypeM.text u) s = (s.text u, s) := outcome_reading _ s
  cases hu : s.text u with
  | error e => exact ⟨e, by rw [outcome_bind, htext, hu], fun hs he => hs.text_ends u (he ▸ hu)⟩
  | ok x =>
    obtain ⟨e, hk, he⟩ := h x
    exact ⟨e, by rw [bind_ok (htext.trans (congrArg (·, s) hu)), hk], he⟩

theorem Refuses.turn (h : Refuses m s) (hc : Clash s a b) (heq : ∀ f, unifyFound f a b = m) : Turn s a b := by
  obtain ⟨e, hm, he⟩ := h
  exact .fail e hc (fun f => by rw [heq, hm]) he

theorem turn_rows (s : TypeStore) (fields fields' : Dict Ty) (rest rest' : Ty) :
    Turn s (.row fields rest) (.row fields' rest') := by
  have heq : ∀ f, unifyFound f (.row fields rest) (.row fields' rest') =
      unifyRows f (.row fields rest) (.row fields' rest') := fun _ => rfl
  cases hfs : s.flatten (.row fields rest) with
  | error e =>
    refine .fail e (.stuck (.inl ⟨e, hfs⟩)) (fun f => ?_) fun hs h => hs.flatten_ends _ (h ▸ hfs)
    rw [heq, unifyRows, outcome_bind, outcome_reading, hfs]
  | ok p =>
    obtain ⟨fs, r⟩ := p
    have hleft : ∀ f, outcome (unifyRows f (.row fields rest) (.row fields' rest')) s = _ := fun f =>
      bind_ok ((outcome_reading _ s).trans (congrArg (·, s) hfs))
    cases hgs : s.flatten (.row fields' rest') with
    | error e =>
      refine .fail e (.stuck (.inr ⟨e, hgs⟩)) (fun f => ?_) fun hs h => hs.flatten_ends _ (h ▸ hgs)
      rw [heq, hleft, outcome_bind, outcome_reading, hgs]
    | ok p =>
      obtain ⟨gs, q⟩ := p
      refine .rows fields fields' fs gs rest rest' r q rfl rfl hfs hgs fun f => ?_
      rw [heq, hleft, bind_ok ((outcome_reading _ s).trans (congrArg (·, s) hgs)), ← forM_unifyField]

theorem turn (s : TypeStore) (a b : Ty) : Turn s a b := by
  have hunrelated : ∀ a b, Refuses (do throw (.unrelated (← text a) (← text b))) s := fun a b =>
    Refuses.text (fun _ => Refuses.text (fun _ => Refuses.throw (by simp)) b) a
  cases a with
  | var i => exact .bind i b rfl fun _ => rfl
  | con m as =>
    cases b with
    | var j => exact .bind j _ rfl fun _ => rfl
    | con n bs =>
      by_cases h : m = n ∧ as.length = bs.length
      · obtain ⟨rfl, hlen⟩ := h
        exact .args m as bs rfl rfl hlen fun f => if_pos (by simpa using hlen)
      · refine Refuses.turn ?_ (.con h) fun f => if_neg (by simpa using h)
        exact Refuses.text (fun _ => Refuses.text (fun _ => Refuses.throw (by simp)) _) _
    | row | emptyRow | bare => exact (hunrelated _ _).turn (.forms rfl rfl (by simp [Ty.kind])) fun _ => rfl
  | row fields rest =>
    cases b with
    | var j => exact .bind j _ rfl fun _ => rfl
    | row fields' rest' => exact turn_rows s fields fields' rest rest'
    | emptyRow =>
      exact (Refuses.text (fun _ => Refuses.throw (by simp)) _).turn (.forms rfl rfl (by simp [Ty.kind])) fun _ => rfl
    | con | bare => exact (hunrelated _ _).turn (.forms rfl rfl (by simp [Ty.kind])) fun _ => rfl
  | emptyRow =>
    cases b with
    | var j => exact .bind j _ rfl fun _ => rfl
    | emptyRow => exact .done rfl rfl fun _ => rfl
    | row =>
      exact (Refuses.text (fun _ => Refuses.throw (by simp)) _).turn (.forms rfl rfl (by simp [Ty.kind])) fun _ => rfl
    | con | bare => exact (hunrelated _ _).turn (.forms rfl rfl (by simp [Ty.kind])) fun _ => rfl
  | bare =>
    cases b with
    | var j => exact .bind j _ rfl fun _ => rfl
    | bare => exact (hunrelated _ _).turn .bare fun _ => rfl
    | con | row | emptyRow => exact (hunrelated _ _).turn (.forms rfl rfl (by simp [Ty.kind])) fun _ => rfl

theorem bindVar_outcome (hi : s.bound? i = none) (u : Ty) :
    (s.occurs (.var i) u = .ok false ∧ outcome (bindVar (.var i) u) s = (.ok (), s.setBound i u)) ∨
      (s.occurs (.var i) u ≠ .ok false ∧ Refuses (bindVar (.var i) u) s) := by
  have hread : outcome (reading fun s => s.occurs (.var i) u) s = (s.occurs (.var i) u, s) := outcome_reading _ s
  cases ho : s.occurs (.var i) u with
  | error e =>
    exact .inr ⟨by simp, e, by rw [bindVar, outcome_bind, hread, ho], fun _ he => s.occurs_ends _ u (he ▸ ho)⟩
  | ok found =>
    rw [bindVar, bind_ok (hread.trans (congrArg (·, s) ho))]
    cases found with
    | true =>
      have hrefuses : Refuses (do throw (.occurs (← text (.var i)) (← text u)); makeEqual (.var i) u) s :=
        Refuses.text (fun x => Refuses.text (fun y => ⟨.occurs x y, rfl, fun _ => by simp⟩) u) _
      obtain ⟨e, hout, he⟩ := hrefuses
      exact .inr ⟨by simp, e, (bind_ok (hread.trans (congrArg (·, s) ho))).trans hout, he⟩
    | false =>
      refine .inl ⟨rfl, ?_⟩
      have hfind : outcome (find (.var i)) s = (.ok (.var i), s) :=
        congrArg (fun t => (Except.ok t, s)) (find_unbound hi)
      show outcome (makeEqual (.var i) u) s = _
      rw [makeEqual, bind_ok hfind]
      rfl

end Turns

/-! ### Steps of a run -/

section Except
open Classical in
/-- Unification that does something else instead of the calls at risk. -/
noncomputable def unifyExcept (Risk : CallSet) (instead : TypeM Unit) : Nat → Ty → Ty → TypeM Unit
  | 0, _, _ => throw .outOfFuel
  | n + 1, a, b => do
    let s ← get
    if Risk s (s.find a) (s.find b) then instead
    else unifyFound (unifyExcept Risk instead n) (s.find a) (s.find b)

/-- A run makes no call at risk: it comes to the same whatever is done instead of such calls. -/
def Avoids (Risk : CallSet) (n : Nat) (a b : Ty) (s : TypeStore) : Prop :=
  ∀ instead, outcome (unifyExcept Risk instead n a b) s = outcome (unifyWithin n a b) s

end Except

/-- What a run does to the store, step by step: it adds variables and binds unbound ones, in calls that are not at
risk, to types that the occurs check lets pass. All of it stays in a region and among the variables added since. -/
inductive Evolves (Risk : CallSet) (C : Finset Nat) (s : TypeStore) : TypeStore → Prop
  | refl : Evolves Risk C s s
  | fresh {t : TypeStore} (h : Evolves Risk C s t) : Evolves Risk C s (t.withFresh ("t" ++ toString t.counter))
  | bind {t : TypeStore} {a b u : Ty} {i : Nat} (h : Evolves Risk C s t) (ha : t.find a = a) (hb : t.find b = b)
    (hbinds : binds? a b = some (i, u)) (hrisk : ¬ Risk t a b) (hi : i ∈ grown C s t) (hu : u.Among (grown C s t))
    (hocc : t.occurs (.var i) u = .ok false) : Evolves Risk C s (t.setBound i u)

/-- What all steps keep: chains of variables end, bindings stay, the region grows by the new variables only, and
variables outside of it are left alone. -/
structure Frame (C : Finset Nat) (s t : TypeStore) : Prop where
  chained : t.Chained
  kept : t.Extends s
  encloses : t.Encloses (grown C s t)
  outside : ∀ i, i < s.vars.size → i ∉ C → t.bound? i = s.bound? i

section Evolution
variable {s t r : TypeStore}

theorem binds?_eq_some (h : binds? a b = some (i, u)) : (a = .var i ∧ b = u) ∨ (b = .var i ∧ a = u) := by
  cases a with
  | var j =>
    cases h
    exact .inl ⟨rfl, rfl⟩
  | con | row | emptyRow | bare =>
    cases b with
    | var j =>
      cases h
      exact .inr ⟨rfl, rfl⟩
    | con | row | emptyRow | bare => cases h

theorem binds?_roots (hs : s.Chained) (h : binds? a b = some (i, u)) (ha : s.find a = a) (hb : s.find b = b) :
    s.bound? i = none ∧ s.find u = u := by
  rcases binds?_eq_some h with ⟨rfl, rfl⟩ | ⟨rfl, rfl⟩
  · exact ⟨hs.unbound_of_find ha, hb⟩
  · exact ⟨hs.unbound_of_find hb, ha⟩

theorem Evolves.size_le (h : Evolves Risk C s t) : s.vars.size ≤ t.vars.size := by
  induction h with
  | refl => exact Nat.le_refl _
  | fresh _ ih => exact ih.trans (withFresh_extends _).size
  | bind _ _ _ _ _ _ _ _ ih => rwa [size_setBound]

theorem Evolves.trans (h : Evolves Risk C s t) (h' : Evolves Risk (grown C s t) t r) : Evolves Risk C s r := by
  induction h' with
  | refl => exact h
  | fresh _ ih => exact .fresh ih
  | bind h' ha hb hbinds hrisk hi hu hocc ih =>
    rw [grown_grown h.size_le h'.size_le] at hi hu
    exact .bind ih ha hb hbinds hrisk hi hu hocc

theorem Evolves.frame (h : Evolves Risk C s t) (hs : s.Chained) (hC : s.Encloses C) : Frame C s t := by
  induction h with
  | refl => exact ⟨hs, Extends.refl s, by rwa [grown_self], fun _ _ _ => rfl⟩
  | @fresh t h ih =>
    have hext := withFresh_extends (s := t) ("t" ++ toString t.counter)
    have hsub : grown C s t ⊆ grown C s (t.withFresh ("t" ++ toString t.counter)) := fun i hi => by
      rw [mem_grown] at hi ⊢
      exact hi.imp_right fun hi => ⟨hi.1, hi.2.trans_le hext.size⟩
    refine ⟨ih.chained.withFresh _, hext.trans ih.kept, ⟨fun i hi => ?_, fun i hi u hu => ?_⟩, fun i hi hiC => ?_⟩
    · rcases mem_grown.mp hi with hi | hi
      · exact (ih.encloses.lt i (mem_grown.mpr (.inl hi))).trans_le hext.size
      · exact hi.2
    · -- The new variable is unbound, so a bound one was in the region before.
      rw [bound?_withFresh] at hu
      have hi' : i ∈ grown C s t := (mem_grown.mp hi).elim (fun hi => mem_grown.mpr (.inl hi)) fun hi =>
        mem_grown.mpr (.inr ⟨hi.1, lt_size_of_bound hu⟩)
      exact (ih.encloses.closed i hi' u hu).mono hsub
    · rw [bound?_withFresh, ih.outside i hi hiC]
  | @bind t a b u i h ha hb hbinds _ hi hu hocc ih =>
    have hlt := ih.encloses.lt i hi
    obtain ⟨hunb, hroot⟩ := binds?_roots ih.chained hbinds ha hb
    have hext := setBound_extends (t := u) hlt hunb
    have hgrown : grown C s (t.setBound i u) = grown C s t := by rw [grown, grown, size_setBound]
    refine ⟨ih.chained.setBound hlt hunb (ih.encloses.scopes hu) hroot (fun heq => by rw [heq, occurs_self hunb] at hocc; cases hocc),
      hext.trans ih.kept, ?_, fun j hj hjC => ?_⟩
    · rw [hgrown]
      refine ⟨fun j hj => (ih.encloses.lt j hj).trans_le hext.size, fun j hj v hv => ?_⟩
      rw [bound?_setBound hlt] at hv
      split at hv
      · cases hv
        exact hu
      · exact ih.encloses.closed j hj v hv
    · have hne : j ≠ i := by
        rintro rfl
        rcases mem_grown.mp hi with hi | hi
        · exact hjC hi
        · omega
      rw [bound?_setBound hlt, if_neg hne, ih.outside j hj hjC]

end Evolution

/-! ### Runs -/

/-- The store that a run of `f` leaves, whether it returns or fails, has evolved by steps. -/
def Steps (Risk : CallSet) (f : Ty → Ty → TypeM Unit) : Prop :=
  ∀ a b s C, s.Chained → s.Encloses C → a.Among C → b.Among C → Evolves Risk C s (outcome (f a b) s).2

section Runs
variable {f : Ty → Ty → TypeM Unit} {s : TypeStore}

theorem Steps.all (hf : Steps Risk f) (hs : s.Chained) (hC : s.Encloses C) (hps : ∀ p ∈ ps, p.1.Among C ∧ p.2.Among C) :
    Evolves Risk C s (outcome (unifyAll f ps) s).2 := by
  induction ps generalizing s C with
  | nil => exact .refl
  | cons p ps ih =>
    obtain ⟨ha, hb⟩ := hps p (.head _)
    have hp := hf p.1 p.2 s C hs hC ha hb
    rw [unifyAll_cons, outcome_bind]
    rcases hout : outcome (f p.1 p.2) s with ⟨e | _, t⟩
    · rwa [hout] at hp
    · rw [hout] at hp
      have hframe := hp.frame hs hC
      refine hp.trans (ih hframe.chained hframe.encloses fun q hq => ?_)
      obtain ⟨ha, hb⟩ := hps q (.tail _ hq)
      exact ⟨ha.mono subset_grown, hb.mono subset_grown⟩

theorem closingStore_evolves (Risk : CallSet) (ls ms : Dict Ty) (C : Finset Nat) (s : TypeStore) :
    Evolves Risk C s (closingStore ls ms s) := by
  unfold closingStore
  split
  · exact .refl
  · exact .fresh .refl

theorem closing_among (hls : ∀ p ∈ ls, p.2.Among C) (hms : ∀ p ∈ ms, p.2.Among C) (hr : r.Among C)
    (hq : q.Among C) : ∀ p ∈ closing ls ms r q (.var s.vars.size),
      p.1.Among (grown C s (closingStore ls ms s)) ∧ p.2.Among (grown C s (closingStore ls ms s)) := by
  have hsub : C ⊆ grown C s (closingStore ls ms s) := subset_grown
  obtain _ | ⟨l, ls⟩ := ls
  · obtain _ | ⟨m, ms⟩ := ms
    · simpa [closing] using ⟨hr.mono hsub, hq.mono hsub⟩
    · simpa [closing] using ⟨hq.mono hsub, (Ty.among_row hms hr).mono hsub⟩
  · obtain _ | ⟨m, ms⟩ := ms
    · simpa [closing] using ⟨hr.mono hsub, (Ty.among_row hls hq).mono hsub⟩
    · have hz : (Ty.var s.vars.size).Among (grown C s (closingStore (l :: ls) (m :: ms) s)) :=
        Ty.among_var.mpr (mem_grown.mpr (.inr ⟨Nat.le_refl _, by simp [closingStore, withFresh]⟩))
      have hrow : ∀ {ks : Dict Ty}, (∀ p ∈ ks, p.2.Among C) → (Ty.row ks (.var s.vars.size)).Among _ := fun hks =>
        Ty.among_row (fun p hp => (hks p hp).mono hsub) hz
      simpa [closing] using ⟨⟨hr.mono hsub, hrow hls⟩, hq.mono hsub, hrow hms⟩

theorem shared_among (hfs : ∀ p ∈ fs, p.2.Among C) (hgs : ∀ p ∈ gs, p.2.Among C) :
    ∀ p ∈ shared fs gs, p.1.Among C ∧ p.2.Among C := by
  intro p hp
  obtain ⟨q, hq, hp⟩ := mem_filterMap.mp hp
  obtain ⟨u, hu, rfl⟩ := Option.map_eq_some_iff.mp hp
  exact ⟨hfs q (mem_inKeyOrder.mp hq), hgs _ (Dict.mem_of_get? hu)⟩

theorem missing_among (hgs : ∀ p ∈ gs, p.2.Among C) : ∀ p ∈ missing fs gs, p.2.Among (grown C s t) :=
  fun p hp => (hgs p (mem_missing.mp hp).1).mono subset_grown

theorem Steps.closeRows (hf : Steps Risk f) (hs : s.Chained) (hC : s.Encloses C)
    (hls : ∀ p ∈ ls, p.2.Among C) (hms : ∀ p ∈ ms, p.2.Among C) (hr : r.Among C) (hq : q.Among C) :
    Evolves Risk C s (outcome (closeRows f ls ms r q) s).2 := by
  have hstore := closingStore_evolves Risk ls ms C s
  have hframe := hstore.frame hs hC
  rw [outcome_closeRows]
  exact hstore.trans (hf.all hframe.chained hframe.encloses (closing_among hls hms hr hq))

theorem Steps.found (hf : Steps Risk f) (hs : s.Chained) (hC : s.Encloses C) (ha : a.Among C) (hb : b.Among C)
    (hra : s.find a = a) (hrb : s.find b = b) (hrisk : ¬ Risk s a b) :
    Evolves Risk C s (outcome (unifyFound f a b) s).2 := by
  cases turn s a b with
  | bind i t hbinds heq =>
    obtain ⟨hi, ht⟩ : i ∈ C ∧ t.Among C := by
      rcases binds?_eq_some hbinds with ⟨rfl, rfl⟩ | ⟨rfl, rfl⟩
      · exact ⟨Ty.among_var.mp ha, hb⟩
      · exact ⟨Ty.among_var.mp hb, ha⟩
    rw [heq]
    rcases bindVar_outcome (binds?_roots hs hbinds hra hrb).1 t with ⟨hocc, hout⟩ | ⟨-, e, hout, -⟩
    · rw [hout]
      exact .bind .refl hra hrb hbinds hrisk (grown_self ▸ hi) (grown_self ▸ ht) hocc
    · rw [hout]
      exact .refl
  | args name as bs hfa hfb _ heq =>
    subst hfa hfb
    rw [heq]
    exact hf.all hs hC fun p hp => ⟨ha.part (of_mem_zip hp).1, hb.part (of_mem_zip hp).2⟩
  | rows fields fields' fs gs rest rest' r q _ _ hfs hgs heq =>
    obtain ⟨hr, hinf⟩ := (flat_of_flatten hfs).among hs hC ha
    obtain ⟨hq, hing⟩ := (flat_of_flatten hgs).among hs hC hb
    have hloop := hf.all hs hC (shared_among hinf hing)
    rw [heq, outcome_bind]
    rcases hout : outcome (unifyAll f (shared fs gs)) s with ⟨e | _, t⟩
    · rwa [hout] at hloop
    · rw [hout] at hloop
      have hframe := hloop.frame hs hC
      exact hloop.trans (hf.closeRows hframe.chained hframe.encloses (missing_among hing) (missing_among hinf)
        (hr.mono subset_grown) (hq.mono subset_grown))
  | done _ _ heq =>
    rw [heq]
    exact .refl
  | fail e _ heq _ =>
    rw [heq]
    exact .refl

theorem outcome_unifyExcept (Risk : CallSet) (instead : TypeM Unit) (n : Nat) (a b : Ty)
    (s : TypeStore) :
    (Risk s (s.find a) (s.find b) → outcome (unifyExcept Risk instead (n + 1) a b) s = outcome instead s) ∧
      (¬ Risk s (s.find a) (s.find b) → outcome (unifyExcept Risk instead (n + 1) a b) s =
        outcome (unifyFound (unifyExcept Risk instead n) (s.find a) (s.find b)) s) := by
  have heq : outcome (unifyExcept Risk instead (n + 1) a b) s = outcome
      (open Classical in if Risk s (s.find a) (s.find b) then instead
        else unifyFound (unifyExcept Risk instead n) (s.find a) (s.find b)) s := rfl
  exact ⟨fun h => by rw [heq, if_pos h], fun h => by rw [heq, if_neg h]⟩

theorem unifyExcept_steps (Risk : CallSet) (e : TypingError) (n : Nat) :
    Steps Risk (unifyExcept Risk (throw e) n) := by
  induction n with
  | zero => exact fun _ _ _ _ _ _ _ _ => .refl
  | succ n ih =>
    intro a b s C hs hC ha hb
    by_cases hrisk : Risk s (s.find a) (s.find b)
    · rw [(outcome_unifyExcept Risk (throw e) n a b s).1 hrisk]
      exact .refl
    · have hroot : ∀ u, s.find (s.find u) = s.find u := hs.find_find hs (Extends.refl s)
      rw [(outcome_unifyExcept Risk (throw e) n a b s).2 hrisk]
      exact ih.found hs hC (hs.among_find hC ha) (hs.among_find hC hb) (hroot a) (hroot b) hrisk

theorem outcome_unifyWithin (n : Nat) (a b : Ty) (s : TypeStore) :
    outcome (unifyWithin (n + 1) a b) s = outcome (unifyFound (unifyWithin n) (s.find a) (s.find b)) s := by
  have hfind : ∀ u, outcome (find u) s = (.ok (s.find u), s) := fun _ => rfl
  rw [unifyWithin, bind_ok (hfind a), bind_ok (hfind b)]

theorem unifyExcept_never (instead : TypeM Unit) (n : Nat) :
    unifyExcept (fun _ _ _ => False) instead n = unifyWithin n := by
  induction n with
  | zero => rfl
  | succ n ih =>
    funext a b
    refine funext fun s => ?_
    have hsucc := (outcome_unifyExcept (fun _ _ _ => False) instead n a b s).2 not_false
    rw [ih, ← outcome_unifyWithin] at hsucc
    exact hsucc

theorem unifyWithin_steps (n : Nat) : Steps (fun _ _ _ => False) (unifyWithin n) := by
  rw [← unifyExcept_never (throw .outOfFuel)]
  exact unifyExcept_steps _ _ n

end Runs

/-! ### Two runs side by side -/

/-- From types over the store, `f` comes to the same as `g`, unless `g` comes to something bad. -/
def Matches (Bad : Except TypingError Unit × TypeStore → Prop) (f g : Ty → Ty → TypeM Unit) : Prop :=
  ∀ a b s, s.Chained → s.Scopes a → s.Scopes b → outcome (f a b) s = outcome (g a b) s ∨ Bad (outcome (g a b) s)

/-- What is bad stays bad as the run goes on. -/
def Lasts (Bad : Except TypingError Unit × TypeStore → Prop) : Prop :=
  ∀ s t r, Bad (.ok (), s) → t.Extends s → Bad (r, t)

section Matching
variable {Bad : Except TypingError Unit × TypeStore → Prop} {f : Ty → Ty → TypeM Unit} {s : TypeStore}

theorem matches_bind {m' k k' : TypeM Unit} (hlasts : Lasts Bad)
    (h : outcome m s = outcome m' s ∨ Bad (outcome m' s))
    (hk : ∀ t, outcome m' s = (.ok (), t) →
      (outcome k t = outcome k' t ∨ Bad (outcome k' t)) ∧ (outcome k' t).2.Extends t) :
    outcome (do m; k) s = outcome (do m'; k') s ∨ Bad (outcome (do m'; k') s) := by
  rw [outcome_bind, outcome_bind]
  rcases hm' : outcome m' s with ⟨e | _, t⟩
  · rw [hm'] at h
    rcases h with h | h
    · rw [h]
      exact .inl rfl
    · exact .inr h
  · obtain ⟨hrest, hext⟩ := hk t hm'
    rw [hm'] at h
    rcases h with h | h
    · rw [h]
      exact hrest
    · exact .inr (hlasts t _ _ h hext)

theorem Steps.frame (hg : Steps Risk g) (hs : s.Chained) (ha : s.Scopes a) (hb : s.Scopes b) :
    Frame (Finset.range s.vars.size) s (outcome (g a b) s).2 :=
  (hg a b s _ hs hs.closed.encloses ha.among hb.among).frame hs hs.closed.encloses

theorem Steps.frame_all (hg : Steps Risk g) (hs : s.Chained) (hps : ∀ p ∈ ps, s.Scopes p.1 ∧ s.Scopes p.2) :
    Frame (Finset.range s.vars.size) s (outcome (unifyAll g ps) s).2 :=
  (hg.all hs hs.closed.encloses fun p hp => ⟨(hps p hp).1.among, (hps p hp).2.among⟩).frame hs hs.closed.encloses

theorem Matches.all (h : Matches Bad f g) (hlasts : Lasts Bad) (hg : Steps Risk g) (hs : s.Chained)
    (hps : ∀ p ∈ ps, s.Scopes p.1 ∧ s.Scopes p.2) :
    outcome (unifyAll f ps) s = outcome (unifyAll g ps) s ∨ Bad (outcome (unifyAll g ps) s) := by
  induction ps generalizing s with
  | nil => exact .inl rfl
  | cons p ps ih =>
    obtain ⟨ha, hb⟩ := hps p (.head _)
    refine matches_bind hlasts (h p.1 p.2 s hs ha hb) fun t ht => ?_
    have hframe := hg.frame hs ha hb
    rw [ht] at hframe
    have hrest : ∀ q ∈ ps, t.Scopes q.1 ∧ t.Scopes q.2 := fun q hq =>
      (hps q (.tail _ hq)).imp hframe.kept.scopes hframe.kept.scopes
    exact ⟨ih hframe.chained hrest, (hg.frame_all hframe.chained hrest).kept⟩

theorem Matches.found (h : Matches Bad f g) (hlasts : Lasts Bad) (hg : Steps Risk g) (hs : s.Chained)
    (ha : s.Scopes a) (hb : s.Scopes b) :
    outcome (unifyFound f a b) s = outcome (unifyFound g a b) s ∨ Bad (outcome (unifyFound g a b) s) := by
  cases turn s a b with
  | bind i t _ heq => exact .inl (by rw [heq, heq])
  | args name as bs hfa hfb _ heq =>
    subst hfa hfb
    rw [heq, heq]
    exact h.all hlasts hg hs fun p hp => ⟨ha.part (of_mem_zip hp).1, hb.part (of_mem_zip hp).2⟩
  | rows fields fields' fs gs rest rest' r q _ _ hfs hgs heq =>
    obtain ⟨hr, hinf⟩ := (flat_of_flatten hfs).among hs hs.closed.encloses ha.among
    obtain ⟨hq, hing⟩ := (flat_of_flatten hgs).among hs hs.closed.encloses hb.among
    have hshared : ∀ p ∈ shared fs gs, s.Scopes p.1 ∧ s.Scopes p.2 := fun p hp =>
      (shared_among hinf hing p hp).imp hs.closed.encloses.scopes hs.closed.encloses.scopes
    rw [heq, heq]
    refine matches_bind hlasts (h.all hlasts hg hs hshared) fun t ht => ?_
    have hframe := hg.frame_all hs hshared
    rw [ht] at hframe
    have hls : ∀ p ∈ missing fs gs, p.2.Among (grown (Finset.range s.vars.size) s t) := missing_among hing
    have hms : ∀ p ∈ missing gs fs, p.2.Among (grown (Finset.range s.vars.size) s t) := missing_among hinf
    have hclosing := closing_among (s := t) hls hms (hr.mono subset_grown) (hq.mono subset_grown)
    have hstore := closingStore_evolves Risk (missing fs gs) (missing gs fs)
      (grown (Finset.range s.vars.size) s t) t
    have hframe' := hstore.frame hframe.chained hframe.encloses
    have hscopes := fun p hp => (hclosing p hp).imp hframe'.encloses.scopes hframe'.encloses.scopes
    rw [outcome_closeRows, outcome_closeRows]
    exact ⟨h.all hlasts hg hframe'.chained hscopes, (hg.frame_all hframe'.chained hscopes).kept.trans hframe'.kept⟩
  | done _ _ heq => exact .inl (by rw [heq, heq])
  | fail e _ heq _ => exact .inl (by rw [heq, heq])

/-- A run that does something else instead of calls at risk comes to the same, if each such call would come to something
bad. -/
theorem matches_of_bad (hlasts : Lasts Bad) (hbad : ∀ n a b s, s.Chained → s.Scopes a → s.Scopes b →
    Risk s (s.find a) (s.find b) → Bad (outcome (unifyWithin (n + 1) a b) s)) (instead : TypeM Unit) (n : Nat) :
    Matches Bad (unifyExcept Risk instead n) (unifyWithin n) := by
  induction n with
  | zero => exact fun _ _ _ _ _ _ => .inl rfl
  | succ n ih =>
    intro a b s hs ha hb
    by_cases hrisk : Risk s (s.find a) (s.find b)
    · exact .inr (hbad n a b s hs ha hb hrisk)
    · rw [(outcome_unifyExcept Risk instead n a b s).2 hrisk, outcome_unifyWithin]
      exact ih.found hlasts (unifyWithin_steps n) hs (hs.scopes_find ha) (hs.scopes_find hb)

/-- Unification comes to the same as a run that fails in calls at risk, unless that has failed so. -/
theorem matches_except (Risk : CallSet) (e : TypingError) (n : Nat) :
    Matches (fun o => o.1 = .error e) (unifyWithin n) (unifyExcept Risk (throw e) n) := by
  induction n with
  | zero => exact fun _ _ _ _ _ _ => .inl rfl
  | succ n ih =>
    intro a b s hs ha hb
    by_cases hrisk : Risk s (s.find a) (s.find b)
    · exact .inr (by rw [(outcome_unifyExcept _ _ n a b s).1 hrisk]; rfl)
    · rw [(outcome_unifyExcept _ _ n a b s).2 hrisk, outcome_unifyWithin]
      exact ih.found (fun _ _ _ h => by cases h) (unifyExcept_steps Risk e n) hs (hs.scopes_find ha) (hs.scopes_find hb)

end Matching

end TypeM

end Scrap
