import Scrap.Proofs.Runs
import Scrap.Proofs.Types.Resolution

/-! # Unification makes types equal

A run only adds variables and bindings. What it achieves is said of every later store without cycles, since later
bindings can change the rows that were flattened before. -/

namespace Scrap

open List

variable {fs gs : Dict Ty} {i : Nat} {α : Type} {s s' : TypeStore}

namespace TypeStore

/-! ### Adding bindings and variables -/

def setBound (s : TypeStore) (i : Nat) (t : Ty) : TypeStore :=
  { s with vars := s.vars.modify i fun v => { v with bound := some t } }

def withFresh (s : TypeStore) (name : String) : TypeStore := { vars := s.vars.push { name }, counter := s.counter + 1 }

section Updates
variable {t : Ty}

@[simp] theorem size_setBound : (s.setBound i t).vars.size = s.vars.size := by simp [setBound]

theorem bound?_setBound (hi : i < s.vars.size) (j : Nat) :
    (s.setBound i t).bound? j = if j = i then some t else s.bound? j := by
  by_cases hj : j < s.vars.size
  · have hij : i = j ↔ j = i := eq_comm
    by_cases h : j = i <;> simp [bound?, setBound, Array.getD, hj, hi, Array.getElem_modify, hij, h]
  · have h : j ≠ i := fun h => hj (h ▸ hi)
    rw [if_neg h, bound?_of_size_le (by simpa using hj), bound?_of_size_le (Nat.not_lt.mp hj)]

theorem setBound_extends (hi : i < s.vars.size) (h : s.bound? i = none) : (s.setBound i t).Extends s := by
  refine ⟨by simp, fun j u hj => ?_⟩
  have hne : j ≠ i := by
    rintro rfl
    rw [h] at hj
    cases hj
  rw [bound?_setBound hi, if_neg hne, hj]

/-- Binding the end of one chain to the end of another, or to a type that is no variable, closes no circle. -/
theorem Chained.setBound (hs : s.Chained) (hi : i < s.vars.size) (h : s.bound? i = none) (ht : s.Scopes t)
    (hroot : s.find t = t) (hne : t ≠ .var i) : (s.setBound i t).Chained := by
  have hext := setBound_extends (t := t) hi h
  refine ⟨fun j u hj => ?_, ?_⟩
  · rw [bound?_setBound hi] at hj
    split at hj
    · cases hj
      exact hext.scopes ht
    · exact hext.scopes (hs.closed j u hj)
  · -- The new end gets rank zero, which is below every variable that forwards to it.
    classical
    refine not_transGen_of_rank (fun j => if t = .var j then 0 else s.steps (.var j) + 1) fun j k hjk => ?_
    have hend : ∀ l, t = .var l → s.bound? l = none := fun l hl => hs.unbound_of_find (hl ▸ hroot)
    rw [Forwards, bound?_setBound hi] at hjk
    split at hjk
    · subst_vars
      cases hjk
      simp [hne]
    · have hj : t ≠ .var j := fun hj => by
        rw [hend j hj] at hjk
        cases hjk
      rcases hs.steps_lt hjk with hlt | hvar
      · rw [if_neg hj]
        split <;> omega
      · cases hvar

theorem bound?_withFresh (name : String) (j : Nat) : (s.withFresh name).bound? j = s.bound? j := by
  by_cases hj : j < s.vars.size
  · simp [bound?, withFresh, Array.getD, Array.getElem_push, hj, Nat.lt_succ_of_lt hj]
  · rw [bound?_of_size_le (Nat.not_lt.mp hj)]
    by_cases hj' : j = s.vars.size
    · simp [bound?, withFresh, Array.getD, hj']
    · exact bound?_of_size_le (by simp [withFresh]; omega)

theorem withFresh_extends (name : String) : (s.withFresh name).Extends s :=
  ⟨by simp [withFresh], fun j u hj => by rw [bound?_withFresh, hj]⟩

theorem Chained.withFresh (hs : s.Chained) (name : String) : (s.withFresh name).Chained := by
  refine ⟨fun j u hj => ?_, ?_⟩
  · rw [bound?_withFresh] at hj
    exact (withFresh_extends name).scopes (hs.closed j u hj)
  · have hf : (s.withFresh name).Forwards = s.Forwards := by
      ext j k
      rw [Forwards, Forwards, bound?_withFresh]
    rw [hf]
    exact hs.ends

end Updates

/-! ### What a run achieves -/

/-- A run from `s` to `s'` keeps all bindings, and from then on `Q` holds in every store without cycles. -/
structure Leads (s s' : TypeStore) (Q : TypeStore → Prop) : Prop where
  chained : s'.Chained
  kept : s'.Extends s
  holds : ∀ t, t.Extends s' → t.Settled → Q t

section Leads
variable {s'' : TypeStore} {P Q : TypeStore → Prop}

theorem Leads.mono (h : Leads s s' P) (hPQ : ∀ t, t.Extends s' → t.Settled → P t → Q t) : Leads s s' Q :=
  ⟨h.chained, h.kept, fun t ht hs => hPQ t ht hs (h.holds t ht hs)⟩

theorem Leads.trans (h : Leads s s' P) (h' : Leads s' s'' Q) : Leads s s'' fun t => P t ∧ Q t :=
  ⟨h'.chained, h'.kept.trans h.kept, fun t ht hs => ⟨h.holds t (ht.trans h'.kept) hs, h'.holds t ht hs⟩⟩

theorem Leads.refl (hs : s.Chained) : Leads s s fun _ => True := ⟨hs, Extends.refl s, fun _ _ _ => trivial⟩

end Leads

end TypeStore

namespace TypeM
open TypeStore

variable {a b rest r : Ty} {fields : Dict Ty} {p : String × Ty}

/-! ### Steps -/

section Steps
variable {m : TypeM String} {u : Unit}

theorem reading_returns {f : TypeStore → Except TypingError α} {a : α}
    (h : outcome (reading f) s = (.ok a, s')) : f s = .ok a ∧ s' = s := by
  unfold reading at h
  obtain ⟨_, _, hget, h⟩ := bind_returns h
  cases hget
  cases hf : f s with
  | error e =>
    rw [hf] at h
    cases h
  | ok b =>
    rw [hf] at h
    cases h
    exact ⟨rfl, rfl⟩

theorem find_returns (h : outcome (find a) s = (.ok b, s')) : b = s.find a ∧ s' = s := by
  cases h
  exact ⟨rfl, rfl⟩

theorem row_returns (h : outcome (row fields rest) s = (.ok r, s')) : r = .row fields rest ∧ s' = s := by
  unfold row at h
  split at h
  · cases h
  · cases h
    exact ⟨rfl, rfl⟩

theorem not_throws {n : TypeM String} {e : String → String → TypingError} :
    outcome (do throw (e (← m) (← n)) : TypeM Unit) s ≠ (.ok u, s') := by
  intro h
  obtain ⟨x, s1, -, h⟩ := bind_returns h
  obtain ⟨y, s2, -, h⟩ := bind_returns h
  cases h

theorem not_throws_one {e : String → TypingError} : outcome (do throw (e (← m)) : TypeM Unit) s ≠ (.ok u, s') := by
  intro h
  obtain ⟨x, s1, -, h⟩ := bind_returns h
  cases h

theorem makeEqual_returns (h : outcome (makeEqual a b) s = (.ok (), s')) :
    ∃ i, s.find a = .var i ∧ s' = s.setBound i b := by
  obtain ⟨found, s1, hfind, h⟩ := bind_returns h
  obtain ⟨rfl, rfl⟩ := find_returns hfind
  cases hf : s1.find a with
  | var i =>
    simp only [hf] at h
    cases h
    exact ⟨i, rfl, rfl⟩
  | con | row | emptyRow | bare =>
    simp only [hf] at h
    exact (not_throws h).elim

theorem occurs_self (h : s.bound? i = none) : s.occurs (.var i) (.var i) = .ok true := by
  have hw := s.extent_lt_weight (.var i)
  obtain ⟨n, hn⟩ : ∃ n, s.weight (.var i) + s.weight (.var i) = n + 1 :=
    ⟨s.weight (.var i) + s.weight (.var i) - 1, by omega⟩
  simp [occurs, same, hn, sameWithin, h]

theorem bindVar_returns (hi : s.bound? i = none) (h : outcome (bindVar (.var i) b) s = (.ok (), s')) :
    b ≠ .var i ∧ s' = s.setBound i b := by
  obtain ⟨found, s1, hocc, h⟩ := bind_returns h
  obtain ⟨hocc, rfl⟩ := reading_returns hocc
  cases found with
  | true =>
    obtain ⟨_, _, _, h⟩ := bind_returns h
    obtain ⟨_, _, _, h⟩ := bind_returns h
    cases h
  | false =>
    obtain ⟨j, hj, rfl⟩ := makeEqual_returns h
    rw [find_unbound hi] at hj
    cases hj
    refine ⟨?_, rfl⟩
    rintro rfl
    rw [occurs_self hi] at hocc
    cases hocc

theorem bindVar_leads (hs : s.Chained) (hi : s.bound? i = none) (hv : s.Scopes (.var i)) (hb : s.Scopes b)
    (hroot : s.find b = b) (h : outcome (bindVar (.var i) b) s = (.ok (), s')) : Leads s s' (·.Agree (.var i) b) := by
  have hlt : i < s.vars.size := hv i (by simp [Ty.vars])
  obtain ⟨hne, rfl⟩ := bindVar_returns hi h
  refine ⟨hs.setBound hlt hi hb hroot hne, setBound_extends hlt hi, fun t ht hset => ?_⟩
  have hbound : t.bound? i = some b := ht.bound i b (by rw [bound?_setBound hlt, if_pos rfl])
  exact agree_of_find_eq (hset.chained.find_bound hbound)

end Steps

/-! ### Loops -/

theorem forM_leads {l : List α} {f : α → TypeM Unit} {Q : α → TypeStore → Prop} (hs : s.Chained)
    (hf : ∀ x ∈ l, ∀ r r', r.Chained → r.Extends s → outcome (f x) r = (.ok (), r') → Leads r r' (Q x))
    (h : outcome (l.forM f) s = (.ok (), s')) : Leads s s' fun t => ∀ x ∈ l, Q x t := by
  induction l generalizing s with
  | nil =>
    cases h
    exact (Leads.refl hs).mono fun t _ _ _ x hx => by cases hx
  | cons x l ih =>
    obtain ⟨⟨⟩, r, hx, h⟩ := bind_returns h
    have hleads := hf x (.head _) s r hs (Extends.refl s) hx
    have hrest := ih hleads.chained
      (fun y hy r' r'' hr hext => hf y (.tail _ hy) r' r'' hr (hext.trans hleads.kept)) h
    refine (hleads.trans hrest).mono fun t _ _ hQ y hy => ?_
    rcases mem_cons.mp hy with rfl | hy
    · exact hQ.1
    · exact hQ.2 y hy

/-! ### Fields that a row lacks -/

theorem proper_missing (hg : gs.Proper) : (missing fs gs).Proper := by
  refine ((inKeyOrder_perm _).map Prod.fst).nodup_iff.mpr ?_
  exact Nodup.sublist (Sublist.map Prod.fst filter_sublist) hg

theorem mem_missing : p ∈ missing fs gs ↔ p ∈ gs ∧ fs.has p.1 = false := by
  rw [missing, mem_inKeyOrder, mem_filter, Bool.not_eq_true']

theorem get?_missing (hg : gs.Proper) (k : String) : (missing fs gs).get? k = if fs.has k then none else gs.get? k := by
  ext u
  rw [get?_eq_some_iff (proper_missing hg), mem_missing]
  cases fs.has k <;> simp [get?_eq_some_iff hg]

/-! ### Runs -/

/-- Where it returns, a computation makes the two types agree. -/
def Unifies (f : Ty → Ty → TypeM Unit) : Prop :=
  ∀ a b s s', s.Chained → s.Scopes a → s.Scopes b → outcome (f a b) s = (.ok (), s') → Leads s s' (·.Agree a b)

section Runs
variable {f : Ty → Ty → TypeM Unit} {q : Ty} {ls : Dict Ty}

theorem Unifies.extend (hf : Unifies f) (hs : s.Chained) (hq : s.Scopes q) (hr : s.Scopes r)
    (hls : ls.Proper) (hin : ∀ p ∈ ls, s.Scopes p.2) (h : outcome (do f q (← row ls r)) s = (.ok (), s')) :
    Leads s s' (·.Over q ls r) := by
  obtain ⟨u, s1, hrow, hrun⟩ := bind_returns h
  obtain ⟨rfl, rfl⟩ := row_returns hrow
  have hscope : s1.Scopes (.row ls r) := fun i hi => by
    rw [Ty.vars, mem_append, Ty.mem_varsFields] at hi
    rcases hi with ⟨p, hp, hi⟩ | hi
    · exact hin p hp i hi
    · exact hr i hi
  refine (hf _ _ _ _ hs hq hscope hrun).mono fun t _ ht hagree => ?_
  have hover := ht.over_row ls r
  rw [Dict.ofEntries_of_proper hls] at hover
  exact ht.over_of_agree hagree hover

theorem Unifies.field (hf : Unifies f) (hs : s.Chained) (hp : s.Scopes p.2)
    (hgs : ∀ p ∈ gs, s.Scopes p.2) (h : outcome (unifyField f gs p) s = (.ok (), s')) :
    Leads s s' fun t => ∀ u, gs.get? p.1 = some u → t.Agree p.2 u := by
  unfold unifyField at h
  cases hu : gs.get? p.1 with
  | none =>
    simp only [hu] at h
    cases h
    exact (Leads.refl hs).mono fun t _ _ _ u hu => by cases hu
  | some u =>
    simp only [hu] at h
    refine (hf _ _ _ _ hs hp (hgs _ (Dict.mem_of_get? hu)) h).mono fun t _ _ hagree v hv => ?_
    cases hv
    exact hagree

/-- After the fields that each of two rows lacks are added, both end in one row. -/
theorem Unifies.close (hf : Unifies f) (hs : s.Chained) {ms : Dict Ty} (hr : s.Scopes r) (hq : s.Scopes q)
    (hls : ∀ p ∈ ls, s.Scopes p.2) (hms : ∀ p ∈ ms, s.Scopes p.2) (hpl : ls.Proper) (hpm : ms.Proper)
    (h : outcome (closeRows f ls ms r q) s = (.ok (), s')) : Leads s s' fun t => ∃ z, t.Over r ls z ∧ t.Over q ms z := by
  obtain _ | ⟨l, ls⟩ := ls
  · obtain _ | ⟨m, ms⟩ := ms
    · exact (hf _ _ _ _ hs hr hq h).mono fun t _ ht hagree => ⟨q, ht.over_of_agree hagree (Over.refl t q), Over.refl t q⟩
    · exact (hf.extend hs hq hr hpm hms h).mono fun t _ _ hover => ⟨r, Over.refl t r, hover⟩
  · obtain _ | ⟨m, ms⟩ := ms
    · exact (hf.extend hs hr hq hpl hls h).mono fun t _ _ hover => ⟨q, hover, Over.refl t q⟩
    · -- A new variable is what both rows go on with.
      obtain ⟨z, s1, hz, h1⟩ := bind_returns h
      cases hz
      rw [← bind_assoc] at h1
      obtain ⟨⟨⟩, s2, h2, h3⟩ := bind_returns h1
      have hnew : (s.withFresh ("t" ++ toString s.counter)).Scopes (.var s.vars.size) := fun i hi => by
        rw [mem_singleton.mp hi]
        simp [withFresh]
      have hfresh : Leads s (s.withFresh ("t" ++ toString s.counter)) fun _ => True :=
        ⟨hs.withFresh _, withFresh_extends _, fun _ _ _ => trivial⟩
      have hleft := hf.extend hfresh.chained (hfresh.kept.scopes hr) hnew hpl
        (fun p hp => hfresh.kept.scopes (hls p hp)) h2
      have hkept := hleft.kept.trans hfresh.kept
      have hright := hf.extend hleft.chained (hkept.scopes hq) (hleft.kept.scopes hnew) hpm
        (fun p hp => hkept.scopes (hms p hp)) h3
      exact ((hfresh.trans hleft).trans hright).mono fun t _ _ hover => ⟨_, hover.1.2, hover.2⟩

/-- At each key, two tables agree once each has got the fields it lacks. -/
theorem tables_agree_of_missing {t : TypeStore} (hfs : fs.Proper) (hgs : gs.Proper)
    (h : ∀ p ∈ fs, ∀ u, gs.get? p.1 = some u → t.Agree p.2 u) (n : Nat) (k : String) :
    ((fs.get? k).or ((missing fs gs).get? k)).map (t.expand n) =
      ((gs.get? k).or ((missing gs fs).get? k)).map (t.expand n) := by
  rw [get?_missing hgs, get?_missing hfs, Dict.has, Dict.has]
  cases hf : fs.get? k with
  | none => cases gs.get? k <;> simp
  | some u =>
    cases hg : gs.get? k with
    | none => simp
    | some v => simp [h (k, u) (Dict.mem_of_get? hf) v hg n]

/-- Two rows agree after their shared fields are unified and each has got the fields it lacks. -/
theorem Unifies.rows (hf : Unifies f) (hs : s.Chained) {fields' : Dict Ty} {rest' : Ty}
    (ha : s.Scopes (.row fields rest)) (hb : s.Scopes (.row fields' rest'))
    (h : outcome (unifyRows f (.row fields rest) (.row fields' rest')) s = (.ok (), s')) :
    Leads s s' (·.Agree (.row fields rest) (.row fields' rest')) := by
  obtain ⟨⟨fs, r⟩, s1, hfs, h1⟩ := bind_returns h
  obtain ⟨hfs, rfl⟩ := reading_returns hfs
  obtain ⟨⟨gs, q⟩, s2, hgs, h2⟩ := bind_returns h1
  obtain ⟨hgs, rfl⟩ := reading_returns hgs
  obtain ⟨⟨⟩, s3, hloop, hclose⟩ := bind_returns h2
  have hff := flat_of_flatten hfs
  have hfg := flat_of_flatten hgs
  obtain ⟨hr, hinf⟩ := hff.scopes hs ha
  obtain ⟨hq, hing⟩ := hfg.scopes hs hb
  have hshared := forM_leads hs (fun p hp r r' hr hext => hf.field hr (hext.scopes (hinf p (mem_inKeyOrder.mp hp)))
    fun p hp => hext.scopes (hing p hp)) hloop
  have hkept := hshared.kept
  have hclosed := hf.close hshared.chained (hkept.scopes hr) (hkept.scopes hq)
    (fun p hp => hkept.scopes (hing p (mem_missing.mp hp).1)) (fun p hp => hkept.scopes (hinf p (mem_missing.mp hp).1))
    (proper_missing hfg.proper) (proper_missing hff.proper) hclose
  -- The tables were read before the loop; in any later store they stand over what the tails have become.
  refine (hshared.trans hclosed).mono fun t hext ht hQ => ?_
  obtain ⟨hagree, z, hrz, hqz⟩ := hQ
  have hts := hext.trans (hclosed.kept.trans hkept)
  exact ht.agree_of_over rfl rfl (hff.over_tail hs ht hts) hrz (hfg.over_tail hs ht hts) hqz
    (tables_agree_of_missing hff.proper hfg.proper fun p hp => hagree p (mem_inKeyOrder.mpr hp))

theorem Unifies.args (hf : Unifies f) (hs : s.Chained) {name : String} {as bs : List Ty} (ha : s.Scopes (.con name as))
    (hb : s.Scopes (.con name bs)) (hlen : as.length = bs.length)
    (h : outcome ((as.zip bs).forM fun p => f p.1 p.2) s = (.ok (), s')) :
    Leads s s' (·.Agree (.con name as) (.con name bs)) := by
  have hargs := forM_leads (Q := fun p t => t.Agree p.1 p.2) hs (fun p hp r r' hr hext => by
    obtain ⟨hpa, hpb⟩ := of_mem_zip hp
    exact hf _ _ _ _ hr (hext.scopes (ha.part hpa)) (hext.scopes (hb.part hpb))) h
  refine hargs.mono fun t _ _ hagree => agree_of_con rfl rfl (forall₂_iff_zip.mpr ⟨hlen, fun {a b} hab => ?_⟩)
  exact hagree (a, b) hab

theorem Unifies.found (hf : Unifies f) (hs : s.Chained) (ha : s.Scopes a) (hb : s.Scopes b) (hra : s.find a = a)
    (hrb : s.find b = b) (h : outcome (unifyFound f a b) s = (.ok (), s')) : Leads s s' (·.Agree a b) := by
  cases a with
  | var i => exact bindVar_leads hs (hs.unbound_of_find hra) ha hb hrb h
  | con m as =>
    cases b with
    | var j => exact (bindVar_leads hs (hs.unbound_of_find hrb) hb ha hra h).mono fun _ _ _ hagree => hagree.symm
    | con n bs =>
      simp only [unifyFound] at h
      split at h
      · rename_i heq
        obtain ⟨rfl, hlen⟩ : m = n ∧ as.length = bs.length := by simpa using heq
        exact hf.args hs ha hb hlen h
      · exact (not_throws h).elim
    | row | emptyRow | bare => exact (not_throws h).elim
  | row fields rest =>
    cases b with
    | var j => exact (bindVar_leads hs (hs.unbound_of_find hrb) hb ha hra h).mono fun _ _ _ hagree => hagree.symm
    | row fields' rest' => exact hf.rows hs ha hb h
    | emptyRow => exact (not_throws_one h).elim
    | con | bare => exact (not_throws h).elim
  | emptyRow =>
    cases b with
    | var j => exact (bindVar_leads hs (hs.unbound_of_find hrb) hb ha hra h).mono fun _ _ _ hagree => hagree.symm
    | emptyRow =>
      cases h
      exact (Leads.refl hs).mono fun t _ _ _ => agree_of_find_eq rfl
    | row => exact (not_throws_one h).elim
    | con | bare => exact (not_throws h).elim
  | bare =>
    cases b with
    | var j => exact (bindVar_leads hs (hs.unbound_of_find hrb) hb ha hra h).mono fun _ _ _ hagree => hagree.symm
    | con | row | emptyRow | bare => exact (not_throws h).elim

theorem unifyWithin_unifies (n : Nat) : Unifies (unifyWithin n) := by
  induction n with
  | zero =>
    intro a b s s' _ _ _ h
    cases h
  | succ n ih =>
    intro a b s s' hs ha hb h
    obtain ⟨a', s1, hfa, h1⟩ := bind_returns h
    obtain ⟨rfl, rfl⟩ := find_returns hfa
    obtain ⟨b', s2, hfb, h2⟩ := bind_returns h1
    obtain ⟨rfl, rfl⟩ := find_returns hfb
    have hroot : ∀ u, s2.find (s2.find u) = s2.find u := hs.find_find hs (Extends.refl s2)
    have hfound := ih.found hs (hs.scopes_find ha) (hs.scopes_find hb) (hroot a) (hroot b) h2
    refine hfound.mono fun t hext ht hagree => ?_
    have hto : ∀ u, t.Agree u (s2.find u) := fun u =>
      agree_of_find_eq (ht.chained.find_find hs (hext.trans hfound.kept) u).symm
    exact (hto a).trans (hagree.trans (hto b).symm)

end Runs

/-- **Unification is sound.** If unification, to any depth, returns from a store without cycles and leaves one, in
which every row goes on with a variable, a row or the empty row, then the two types resolve to the same type there;
and any two types that resolved to the same type before still do. -/
theorem unify_resolves {n : Nat} {a b : Ty} {s s' : TypeStore} (hs : s.Settled) (ha : s.Scopes a) (hb : s.Scopes b)
    (h : outcome (unifyWithin n a b) s = (.ok (), s')) (hs' : s'.Acyclic) (hr : s'.AllRowsEnd) (hra : s'.RowsEnd a)
    (hrb : s'.RowsEnd b) :
    (∃ r, s'.resolve a = some r ∧ s'.resolve b = some r) ∧
      ∀ u v, s'.RowsEnd u → s'.RowsEnd v → (∃ r, s.resolve u = some r ∧ s.resolve v = some r) →
        ∃ r, s'.resolve u = some r ∧ s'.resolve v = some r := by
  have hleads := unifyWithin_unifies n a b s s' hs.chained ha hb h
  have hset : s'.Settled := ⟨hleads.chained.closed, hs'⟩
  refine ⟨hset.resolve_of_agree hr hra hrb (hleads.holds s' (Extends.refl s') hset), fun u v hu hv huv => ?_⟩
  obtain ⟨r, hur, hvr⟩ := huv
  simp only [resolve, Option.ite_none_right_eq_some, Option.some.injEq] at hur hvr
  exact hset.resolve_of_agree hr hu hv (hs.agree_of_whole hset hleads.kept hur.1 (hur.2.trans hvr.2.symm))

/-! Two open rows that share a field and each lack one, over the variables `r`, `q`, `y` and `x`, of which `y` is bound
to `x`. -/

def leftRow : Ty := .row [("a", .var 3), ("b", .int)] (.var 0)

def rightRow : Ty := .row [("a", .string), ("c", .list (.var 3))] (.var 1)

def twoRows : TypeStore := { vars := #[⟨"r", none⟩, ⟨"q", none⟩, ⟨"y", some (.var 3)⟩, ⟨"x", none⟩] }

/-- Both rows have got the field they lack and go on with a new variable. -/
def twoRowsUnified : TypeStore where
  vars := #[⟨"r", some (.row [("c", .list (.var 3))] (.var 4))⟩, ⟨"q", some (.row [("b", .int)] (.var 4))⟩,
    ⟨"y", some (.var 3)⟩, ⟨"x", some .string⟩, ⟨"t0", none⟩]
  counter := 1

theorem twoRows_unify : outcome (unifyWithin 3 leftRow rightRow) twoRows = (.ok (), twoRowsUnified) := by
  have hkeys : inKeyOrder [("a", Ty.var 3), ("b", .int)] = [("a", .var 3), ("b", .int)] :=
    mergeSort_of_pairwise (by decide)
  have hleft : missing [("a", .var 3), ("b", .int)] [("a", .string), ("c", .list (.var 3))] = [("c", .list (.var 3))] :=
    mergeSort_singleton _
  have hright : missing [("a", .string), ("c", .list (.var 3))] [("a", .var 3), ("b", .int)] = [("b", .int)] :=
    mergeSort_singleton _
  show outcome (do
    (inKeyOrder [("a", Ty.var 3), ("b", .int)]).forM
      (unifyField (unifyWithin 2) [("a", .string), ("c", .list (.var 3))])
    closeRows (unifyWithin 2) (missing [("a", .var 3), ("b", .int)] [("a", .string), ("c", .list (.var 3))])
      (missing [("a", .string), ("c", .list (.var 3))] [("a", .var 3), ("b", .int)]) (.var 0) (.var 1)) twoRows = _
  rw [hkeys, hleft, hright]
  rfl

theorem twoRows_resolve : (∃ r, twoRowsUnified.resolve leftRow = some r ∧ twoRowsUnified.resolve rightRow = some r) ∧
    ∃ r, twoRowsUnified.resolve (.var 2) = some r ∧ twoRowsUnified.resolve (.var 3) = some r := by
  have hs : twoRows.Settled := settled_of_forward (by decide)
  have hs' : twoRowsUnified.Settled := settled_of_forward (by decide)
  have hr : ∀ i < twoRowsUnified.vars.size, ∀ r ∈ ((twoRowsUnified.bound? i).map Ty.tails).getD [],
      isRowEnd (twoRowsUnified.find r) = true := by decide
  have hrows : twoRowsUnified.AllRowsEnd := fun i t hi r hrt => hr i (lt_size_of_bound hi) r (by simpa [hi] using hrt)
  have hsound := unify_resolves hs (a := leftRow) (b := rightRow) (by unfold Scopes; decide) (by unfold Scopes; decide)
    twoRows_unify hs'.acyclic hrows (by unfold RowsEnd; decide) (by unfold RowsEnd; decide)
  exact ⟨hsound.1, hsound.2 (.var 2) (.var 3) (by unfold RowsEnd; decide) (by unfold RowsEnd; decide) ⟨.var 3, rfl, rfl⟩⟩

end TypeM

end Scrap
