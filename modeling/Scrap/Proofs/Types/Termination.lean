import Scrap.Proofs.Types.Cycles

/-! # Where unification comes to an end

Two rows that end in the same variable and each lack a field of the other are unified without end. Otherwise, as long
as no cycle is closed, a run that binds anything leaves fewer unbound variables than it found, although it adds some,
and until then each call is on types of less extent. -/

namespace Scrap

open List

variable {C : Finset Nat} {i n z : Nat} {a b u : Ty} {s t : TypeStore} {e : TypingError} {fs gs ls ms : Dict Ty}
  {ps : List (Ty × Ty)} {q r : Ty}

namespace TypeStore

def unbound (s : TypeStore) (C : Finset Nat) : Nat := (C.filter fun i => (s.bound? i).isNone).card

theorem unbound_setBound (hi : i < s.vars.size) (hiC : i ∈ C) (h : s.bound? i = none) :
    (s.setBound i u).unbound C + 1 = s.unbound C := by
  have hfilter : C.filter (fun j => ((s.setBound i u).bound? j).isNone) =
      (C.filter fun j => (s.bound? j).isNone).erase i := by
    ext j
    simp only [Finset.mem_filter, Finset.mem_erase, bound?_setBound hi]
    by_cases hj : j = i <;> simp [hj]
  have hmem : i ∈ C.filter fun j => (s.bound? j).isNone := by simp [hiC, h]
  rw [unbound, unbound, hfilter, Finset.card_erase_add_one hmem]

theorem unbound_withFresh (hC : s.Encloses C) (name : String) :
    (s.withFresh name).unbound (grown C s (s.withFresh name)) = s.unbound C + 1 := by
  have hnew : s.vars.size ∉ C.filter fun j => (s.bound? j).isNone := fun h =>
    Nat.lt_irrefl _ (hC.lt _ (Finset.mem_filter.mp h).1)
  have hfilter : (grown C s (s.withFresh name)).filter (fun j => ((s.withFresh name).bound? j).isNone) =
      insert s.vars.size (C.filter fun j => (s.bound? j).isNone) := by
    ext j
    simp only [Finset.mem_filter, Finset.mem_insert, mem_grown, bound?_withFresh]
    have hsize : (s.withFresh name).vars.size = s.vars.size + 1 := by simp [withFresh]
    constructor
    · rintro ⟨hj | hj, hb⟩
      · exact .inr ⟨hj, hb⟩
      · exact .inl (by omega)
    · rintro (rfl | ⟨hj, hb⟩)
      · exact ⟨.inr ⟨Nat.le_refl _, by omega⟩, by simp [bound?_of_size_le (Nat.le_refl _)]⟩
      · exact ⟨.inl hj, hb⟩
  rw [unbound, unbound, hfilter, Finset.card_insert_of_notMem hnew]

theorem Encloses.withFresh (hC : s.Encloses C) (name : String) : (s.withFresh name).Encloses C :=
  ⟨fun i hi => (hC.lt i hi).trans_le (withFresh_extends name).size,
    fun i hi u hu => hC.closed i hi u (by rwa [bound?_withFresh] at hu)⟩

theorem unbound_congr (h : ∀ i ∈ C, t.bound? i = s.bound? i) : t.unbound C = s.unbound C := by
  unfold unbound
  congr 1
  exact Finset.filter_congr fun i hi => by rw [h i hi]

/-- The store is as it was, or a region has fewer unbound variables, those counted that were added since. -/
def Shrinks (C : Finset Nat) (s t : TypeStore) : Prop := t = s ∨ t.unbound (grown C s t) < s.unbound C

theorem Shrinks.trans {r : TypeStore} (h : Shrinks C s t) (h' : Shrinks (grown C s t) t r)
    (hst : s.vars.size ≤ t.vars.size) (htr : t.vars.size ≤ r.vars.size) : Shrinks C s r := by
  rcases h with rfl | h
  · rwa [grown_self] at h'
  · rcases h' with rfl | h'
    · exact .inr h
    · rw [grown_grown hst htr] at h'
      exact .inr (h'.trans h)

theorem Shrinks.le (h : Shrinks C s t) : t.unbound (grown C s t) ≤ s.unbound C := by
  rcases h with rfl | h
  · rw [grown_self]
  · exact h.le

end TypeStore

namespace TypeM
open TypeStore

/-! ### Calls at risk -/

/-- Two rows end in the same variable and each lacks a field of the other. -/
def SharesTail (s : TypeStore) (a b : Ty) : Prop :=
  ∃ fs gs i, s.flatten a = .ok (fs, .var i) ∧ s.flatten b = .ok (gs, .var i) ∧ missing fs gs ≠ [] ∧ missing gs fs ≠ []

/-- A call that closes a cycle or is on two rows that share a tail. -/
def Risky (s : TypeStore) (a b : Ty) : Prop := ClosesCycle s a b ∨ SharesTail s a b

noncomputable def unifyCautious (e : TypingError) : Nat → Ty → Ty → TypeM Unit := unifyExcept Risky (throw e)

theorem cautious_steps (e : TypingError) (n : Nat) : Steps Risky (unifyCautious e n) := unifyExcept_steps Risky e n

/-- Cautious unification comes to the same as unification, unless it fails in a call at risk. -/
theorem cautious_matches (e : TypingError) (n : Nat) :
    Matches (fun o => o.1 = .error e) (unifyWithin n) (unifyCautious e n) := matches_except Risky e n

theorem unifies_of_cautious (hs : s.Chained) (ha : s.Scopes a) (hb : s.Scopes b)
    (h : outcome (unifyCautious e n a b) s = (.ok (), t)) : outcome (unifyWithin n a b) s = (.ok (), t) := by
  rcases cautious_matches e n a b s hs ha hb with heq | hbad
  · rw [heq, h]
  · rw [h] at hbad
    cases hbad

theorem cautious_var (hi : s.bound? i = none) (h : outcome (unifyCautious e n (.var i) u) s = (.ok (), t)) :
    t = s.setBound i (s.find u) := by
  obtain _ | n := n
  · cases h
  · by_cases hrisk : Risky s (s.find (.var i)) (s.find u)
    · rw [unifyCautious, (outcome_unifyExcept _ _ n _ u s).1 hrisk] at h
      cases h
    · rw [unifyCautious, (outcome_unifyExcept _ _ n _ u s).2 hrisk, find_unbound hi, unifyFound_of_binds rfl] at h
      exact (bindVar_returns hi h).2

theorem cautious_emptyRow {fields : Dict Ty} {rest : Ty} :
    outcome (unifyCautious e n .emptyRow (.row fields rest)) s ≠ (.ok (), t) := by
  obtain _ | n := n
  · intro h
    cases h
  · by_cases hrisk : Risky s (s.find .emptyRow) (s.find (.row fields rest))
    · rw [unifyCautious, (outcome_unifyExcept _ _ n _ _ s).1 hrisk]
      intro h
      cases h
    · rw [unifyCautious, (outcome_unifyExcept _ _ n _ _ s).2 hrisk]
      exact not_throws_one

theorem cautious_frame (hs : s.Settled) (hC : s.Encloses C) (ha : a.Among C) (hb : b.Among C)
    {r : Except TypingError Unit} (h : outcome (unifyCautious e n a b) s = (r, t)) : t.Settled ∧ Frame C s t := by
  have hsteps := cautious_steps e n a b s C hs.chained hC ha hb
  rw [h] at hsteps
  exact ⟨hsteps.settled hs hC fun _ _ _ => .inl, hsteps.frame hs.chained hC⟩

theorem cautious_frame_all (hs : s.Settled) (hC : s.Encloses C) (hps : ∀ p ∈ ps, p.1.Among C ∧ p.2.Among C)
    {r : Except TypingError Unit} (h : outcome (unifyAll (unifyCautious e n) ps) s = (r, t)) :
    t.Settled ∧ Frame C s t := by
  have hsteps := (cautious_steps e n).all hs.chained hC hps
  rw [h] at hsteps
  exact ⟨hsteps.settled hs hC fun _ _ _ => .inl, hsteps.frame hs.chained hC⟩

/-! ### Runs leave fewer unbound variables -/

/-- Giving a row a new tail changes the store: the row did not end in the new variable before. -/
theorem cautious_new_tail (hs : s.Settled) (hC : s.Encloses C) (hr : r.Among C) (hi : s.bound? i = none)
    (hiC : i ∉ C) (hlt : i < s.vars.size) (hls : ∀ p ∈ ls, p.2.Among C)
    (h : outcome (unifyCautious e n r (.row ls (.var i))) s = (.ok (), t)) : t ≠ s := by
  rintro rfl
  have hrow : t.Scopes (.row ls (.var i)) := fun j hj => by
    rw [Ty.vars, mem_append, Ty.mem_varsFields] at hj
    rcases hj with ⟨p, hp, hj⟩ | hj
    · exact hC.scopes (hls p hp) j hj
    · rwa [mem_singleton.mp hj]
  have hrun := unifies_of_cautious hs.chained (hC.scopes hr) hrow h
  have hagree := (unifyWithin_unifies n _ _ _ _ hs.chained (hC.scopes hr) hrow hrun).holds t (Extends.refl t) hs
  obtain ⟨gs, hgs, -⟩ := hs.flatten_of_agree hagree.symm (hs.flatten_open hi ls)
  exact hiC (Ty.among_var.mp ((flat_of_flatten hgs).among hs.chained hC hr).1)

def CallsShrink (e : TypingError) (n : Nat) : Prop :=
  ∀ a b s t C, s.Settled → s.Encloses C → a.Among C → b.Among C → outcome (unifyCautious e n a b) s = (.ok (), t) →
    Shrinks C s t

theorem shrinks_all (hs : s.Settled) (hC : s.Encloses C) (ih : CallsShrink e n)
    (hps : ∀ p ∈ ps, p.1.Among C ∧ p.2.Among C) (h : outcome (unifyAll (unifyCautious e n) ps) s = (.ok (), t)) :
    Shrinks C s t := by
  induction ps generalizing s C with
  | nil =>
    cases h
    exact .inl rfl
  | cons p ps ihps =>
    obtain ⟨⟨⟩, r, hp, hrest⟩ := bind_returns h
    obtain ⟨ha, hb⟩ := hps p (.head _)
    obtain ⟨hr, hframe⟩ := cautious_frame hs hC ha hb hp
    have hps' : ∀ q ∈ ps, q.1.Among (grown C s r) ∧ q.2.Among (grown C s r) := fun q hq =>
      (hps q (.tail _ hq)).imp (·.mono subset_grown) (·.mono subset_grown)
    refine (ih _ _ _ _ _ hs hC ha hb hp).trans (ihps hr hframe.encloses hps' hrest) hframe.kept.size ?_
    exact (cautious_frame_all hr hframe.encloses hps' hrest).2.kept.size

theorem new_tail_among (name : String) (hls : ∀ p ∈ ls, p.2.Among C) :
    (Ty.row ls (.var s.vars.size)).Among (grown C s (s.withFresh name)) := by
  refine Ty.among_row (fun p hp => (hls p hp).mono subset_grown)
    (Ty.among_var.mpr (mem_grown.mpr (.inr ⟨Nat.le_refl _, ?_⟩)))
  simp [withFresh]

theorem new_tail_frame {o : Except TypingError Unit} (hs : s.Settled) (hC : s.Encloses C) (hr : r.Among C)
    (hls : ∀ p ∈ ls, p.2.Among C)
    (h : outcome (unifyCautious e n r (.row ls (.var s.vars.size))) (s.withFresh ("t" ++ toString s.counter)) =
      (o, t)) :
    t.Settled ∧ Frame C s t ∧ s.vars.size < t.vars.size := by
  have hfresh : Evolves Risky C s (s.withFresh ("t" ++ toString s.counter)) := .fresh .refl
  have hframe := hfresh.frame hs.chained hC
  have hcall := cautious_steps e n _ _ _ _ hframe.chained hframe.encloses (hr.mono subset_grown) (new_tail_among _ hls)
  rw [h] at hcall
  have hsteps := hfresh.trans hcall
  refine ⟨hsteps.settled hs hC fun _ _ _ => .inl, hsteps.frame hs.chained hC, Nat.lt_of_lt_of_le ?_ hcall.size_le⟩
  simp [withFresh]

theorem new_tail_shrinks (hs : s.Settled) (hC : s.Encloses C) (hr : r.Among C) (hls : ∀ p ∈ ls, p.2.Among C)
    (ih : CallsShrink e n)
    (h : outcome (unifyCautious e n r (.row ls (.var s.vars.size))) (s.withFresh ("t" ++ toString s.counter)) =
      (.ok (), t)) :
    t.unbound (grown C s t) ≤ s.unbound C := by
  obtain ⟨-, -, hlt⟩ := new_tail_frame hs hC hr hls h
  have hfresh : Evolves Risky C s (s.withFresh ("t" ++ toString s.counter)) := .fresh .refl
  generalize "t" ++ toString s.counter = name at h hfresh
  have hs1 := hfresh.settled hs hC fun _ _ _ => .inl
  have hC1 := (hfresh.frame hs.chained hC).encloses
  have hsize : (s.withFresh name).vars.size = s.vars.size + 1 := by simp [withFresh]
  have hunb : (s.withFresh name).bound? s.vars.size = none := by
    rw [bound?_withFresh, bound?_of_size_le (Nat.le_refl _)]
  have hne := cautious_new_tail hs1 (hC.withFresh _) hr hunb (fun h => Nat.lt_irrefl _ (hC.lt _ h)) (by omega) hls h
  have hcount := (ih _ _ _ _ _ hs1 hC1 (hr.mono subset_grown) (new_tail_among name hls) h).resolve_left hne
  rw [grown_grown (by omega) (by omega), unbound_withFresh hC] at hcount
  omega

/-- If two rows lack fields of each other and do not share their tail, then giving the first a new tail leaves the second
ending as it did. -/
theorem second_tail {z : Ty} {name : String} (hs : s.Settled) (ha : s.Scopes a) (hb : s.Scopes b)
    (hfs : s.flatten a = .ok (fs, r)) (hgs : s.flatten b = .ok (gs, q))
    (hboth : ¬ (missing fs gs = [] ∨ missing gs fs = [])) (hno : ¬ SharesTail s a b)
    (h : outcome (unifyCautious e n r (.row (missing fs gs) z)) (s.withFresh name) = (.ok (), t)) :
    q = .emptyRow ∨ ∃ j, q = .var j ∧ j < t.vars.size ∧ t.bound? j = none := by
  have hr := flat_of_flatten hfs
  have hq := flat_of_flatten hgs
  rcases hr.tail with rfl | ⟨i, rfl⟩
  · exact absurd h cautious_emptyRow
  rcases hq.tail with rfl | ⟨j, rfl⟩
  · exact .inl rfl
  have hij : j ≠ i := by
    rintro rfl
    exact hno ⟨fs, gs, j, hfs, hgs, fun h => hboth (.inl h), fun h => hboth (.inr h)⟩
  have hfresh := withFresh_extends (s := s) name
  have hi := hfresh.scopes (hr.scopes hs.chained ha).1 i (by simp [Ty.vars])
  have hj := hfresh.scopes (hq.scopes hs.chained hb).1 j (by simp [Ty.vars])
  have ht := cautious_var (by rw [bound?_withFresh, hr.unbound hs.chained]) h
  refine .inr ⟨j, rfl, by rwa [ht, size_setBound], ?_⟩
  rw [ht, bound?_setBound hi, if_neg hij, bound?_withFresh, hq.unbound hs.chained]

theorem cautious_tail {z : Ty} (hq : q = .emptyRow ∨ ∃ j, q = .var j ∧ j < s.vars.size ∧ s.bound? j = none)
    (h : outcome (unifyCautious e n q (.row ls z)) s = (.ok (), t)) : t ≠ s := by
  rcases hq with rfl | ⟨j, rfl, hj, hunb⟩
  · exact absurd h cautious_emptyRow
  · rintro rfl
    have ht := congrArg (·.bound? j) (cautious_var hunb h)
    simp only [hunb, bound?_setBound hj, if_pos] at ht
    cases ht

theorem shrinks_closing {t0 : TypeStore} (ih : CallsShrink e n) (hs : s.Settled) (hC : s.Encloses C) (ha : a.Among C)
    (hb : b.Among C) (hfs : s.flatten a = .ok (fs, r)) (hgs : s.flatten b = .ok (gs, q)) (hno : ¬ SharesTail s a b)
    (hs0 : t0.Settled) (hframe : Frame C s t0) (hshrinks : Shrinks C s t0)
    (h : outcome (closeRows (unifyCautious e n) (missing fs gs) (missing gs fs) r q) t0 = (.ok (), t)) :
    Shrinks C s t := by
  obtain ⟨hr, hinf⟩ := (flat_of_flatten hfs).among hs.chained hC ha
  obtain ⟨hq, hing⟩ := (flat_of_flatten hgs).among hs.chained hC hb
  have hls : ∀ p ∈ missing fs gs, p.2.Among (grown C s t0) := missing_among hing
  have hms : ∀ p ∈ missing gs fs, p.2.Among (grown C s t0) := missing_among hinf
  have hr0 : r.Among (grown C s t0) := hr.mono subset_grown
  have hq0 : q.Among (grown C s t0) := hq.mono subset_grown
  by_cases hboth : missing fs gs = [] ∨ missing gs fs = []
  · have hpairs := closing_among (s := t0) hls hms hr0 hq0
    have hstore : closingStore (missing fs gs) (missing gs fs) t0 = t0 := if_pos hboth
    rw [hstore, grown_self] at hpairs
    rw [outcome_closeRows, hstore] at h
    exact hshrinks.trans (shrinks_all hs0 hframe.encloses ih hpairs h) hframe.kept.size
      (cautious_frame_all hs0 hframe.encloses hpairs h).2.kept.size
  · rw [outcome_closeRows, closing_both hboth, closingStore, if_neg hboth] at h
    obtain ⟨⟨⟩, t1, h1, h2⟩ := bind_returns h
    change outcome (unifyAll (unifyCautious e n) [(q, .row (missing gs fs) (.var t0.vars.size))]) t1 = _ at h2
    rw [unifyAll_one] at h2
    have hle := new_tail_shrinks hs0 hframe.encloses hr0 hls ih h1
    obtain ⟨hs1, ⟨-, -, hC1, -⟩, hsize1⟩ := new_tail_frame hs0 hframe.encloses hr0 hls h1
    have hrow : (Ty.row (missing gs fs) (.var t0.vars.size)).Among (grown (grown C s t0) t0 t1) :=
      Ty.among_row (fun p hp => (hms p hp).mono subset_grown)
        (Ty.among_var.mpr (mem_grown.mpr (.inr ⟨Nat.le_refl _, hsize1⟩)))
    have hshrinks1 := ih _ _ _ _ _ hs1 hC1 (hq0.mono subset_grown) hrow h2
    have hsize2 := (cautious_frame hs1 hC1 (hq0.mono subset_grown) hrow h2).2.kept.size
    have hle1 := hshrinks1.le
    have hgrown : grown (grown (grown C s t0) t0 t1) t1 t = grown C s t := by
      rw [grown_grown hframe.kept.size hsize1.le, grown_grown (hframe.kept.size.trans hsize1.le) hsize2]
    rw [hgrown] at hle1
    rcases hshrinks with rfl | hlt
    · -- The tails are still different unbound variables, so the second call binds one, too.
      have hq1 := second_tail hs (hC.scopes ha) (hC.scopes hb) hfs hgs hboth hno h1
      have hlt := hshrinks1.resolve_left (cautious_tail hq1 h2)
      rw [hgrown] at hlt
      rw [grown_self] at hle hlt
      exact .inr (by omega)
    · exact .inr (by omega)

/-- **A run that changes the store leaves fewer unbound variables**, those counted that it adds. -/
theorem cautious_shrinks (e : TypingError) (n : Nat) (a b : Ty) (s t : TypeStore) (C : Finset Nat) (hs : s.Settled)
    (hC : s.Encloses C) (ha : a.Among C) (hb : b.Among C) (h : outcome (unifyCautious e n a b) s = (.ok (), t)) :
    Shrinks C s t := by
  induction n generalizing a b s t C with
  | zero => cases h
  | succ n ih =>
    by_cases hrisk : Risky s (s.find a) (s.find b)
    · rw [unifyCautious, (outcome_unifyExcept _ _ n a b s).1 hrisk] at h
      cases h
    rw [unifyCautious, (outcome_unifyExcept _ _ n a b s).2 hrisk] at h
    change outcome (unifyFound (unifyCautious e n) (s.find a) (s.find b)) s = _ at h
    have hroot : ∀ u, s.find (s.find u) = s.find u := hs.chained.find_find hs.chained (Extends.refl s)
    have hfa := hs.chained.among_find hC ha
    have hfb := hs.chained.among_find hC hb
    cases turn s (s.find a) (s.find b) with
    | bind i u hbinds heq =>
      have hi := (binds?_roots hs.chained hbinds (hroot a) (hroot b)).1
      have hiC : i ∈ C := by
        rcases binds?_eq_some hbinds with ⟨hv, -⟩ | ⟨hv, -⟩
        · exact Ty.among_var.mp (hv ▸ hfa)
        · exact Ty.among_var.mp (hv ▸ hfb)
      rw [heq] at h
      obtain ⟨-, rfl⟩ := bindVar_returns hi h
      have hgrown : grown C s (s.setBound i u) = C := by simp [grown]
      have hcount := unbound_setBound (u := u) (hC.lt i hiC) hiC hi
      exact .inr (by rw [hgrown]; omega)
    | args name as bs hca hcb _ heq =>
      rw [heq] at h
      rw [hca] at hfa
      rw [hcb] at hfb
      exact shrinks_all hs hC ih (fun p hp => ⟨hfa.part (of_mem_zip hp).1, hfb.part (of_mem_zip hp).2⟩) h
    | rows fields fields' fs gs rest rest' r q _ _ hfs hgs heq =>
      obtain ⟨-, hinf⟩ := (flat_of_flatten hfs).among hs.chained hC hfa
      obtain ⟨-, hing⟩ := (flat_of_flatten hgs).among hs.chained hC hfb
      rw [heq] at h
      obtain ⟨⟨⟩, t0, hloop, hclose⟩ := bind_returns h
      have hps := shared_among hinf hing
      have hshrinks := shrinks_all hs hC ih hps hloop
      obtain ⟨hs0, hframe⟩ := cautious_frame_all hs hC hps hloop
      exact shrinks_closing ih hs hC hfa hfb hfs hgs (fun h => hrisk (.inr h)) hs0 hframe hshrinks hclose
    | done _ _ heq =>
      rw [heq] at h
      cases h
      exact .inl rfl
    | fail e' _ heq _ =>
      rw [heq] at h
      cases h

/-! ### Runs come to an end -/

/-- To all large enough depths the computation comes to one and the same end, which is not that it ran out of fuel. -/
def Ends (m : Nat → TypeM Unit) (s : TypeStore) : Prop :=
  ∃ N o, o.1 ≠ .error .outOfFuel ∧ ∀ n, N ≤ n → outcome (m n) s = o

/-- All calls on stores with fewer than `k` unbound variables come to an end. -/
def EndsBelow (e : TypingError) (k : Nat) : Prop :=
  ∀ a b s C, s.Settled → s.Encloses C → a.Among C → b.Among C → s.unbound C < k →
    Ends (fun n => unifyCautious e n a b) s

section Ending
variable {m k : Nat → TypeM Unit}

theorem Ends.const {o : Except TypingError Unit × TypeStore}
    (ho : o.1 ≠ .error .outOfFuel) (h : ∀ n, outcome (m n) s = o) : Ends m s :=
  ⟨0, o, ho, fun n _ => h n⟩

theorem Ends.congr (h : Ends m s) (heq : ∀ n, outcome (k n) t = outcome (m n) s) : Ends k t := by
  obtain ⟨N, o, ho, hN⟩ := h
  exact ⟨N, o, ho, fun n hn => by rw [heq, hN n hn]⟩

theorem Ends.of_succ (h : Ends (fun n => m (n + 1)) s) : Ends m s := by
  obtain ⟨N, o, ho, hN⟩ := h
  refine ⟨N + 1, o, ho, fun n hn => ?_⟩
  obtain ⟨n, rfl⟩ : ∃ i, n = i + 1 := ⟨n - 1, by omega⟩
  exact hN n (by omega)

theorem Ends.bind (h : Ends m s) (hk : ∀ n t, outcome (m n) s = (.ok (), t) → Ends k t) :
    Ends (fun n => do m n; k n) s := by
  obtain ⟨N, ⟨e | _, t⟩, ho, hN⟩ := h
  · exact ⟨N, _, ho, fun n hn => by rw [outcome_bind, hN n hn]⟩
  · obtain ⟨K, o, ho, hK⟩ := hk N t (hN N (Nat.le_refl N))
    exact ⟨max N K, o, ho, fun n hn => by rw [bind_ok (hN n (by omega)), hK n (by omega)]⟩

theorem ends_call (he : e ≠ .outOfFuel) (hs : s.Settled)
    (hargs : ∀ name as bs, s.find a = .con name as → s.find b = .con name bs →
      Ends (fun n => unifyAll (unifyCautious e n) (as.zip bs)) s)
    (hrows : ∀ fields fields' fs gs rest rest' r q, s.find a = .row fields rest → s.find b = .row fields' rest' →
      s.flatten a = .ok (fs, r) → s.flatten b = .ok (gs, q) → ¬ SharesTail s a b →
      Ends (fun n => do unifyAll (unifyCautious e n) (shared fs gs)
                        closeRows (unifyCautious e n) (missing fs gs) (missing gs fs) r q) s) :
    Ends (fun n => unifyCautious e n a b) s := by
  refine Ends.of_succ ?_
  by_cases hrisk : Risky s (s.find a) (s.find b)
  · exact .const (o := (.error e, s)) (by simpa using he) fun n => (outcome_unifyExcept _ _ n a b s).1 hrisk
  have hfound : ∀ n, outcome (unifyCautious e (n + 1) a b) s =
      outcome (unifyFound (unifyCautious e n) (s.find a) (s.find b)) s := fun n =>
    (outcome_unifyExcept _ _ n a b s).2 hrisk
  have hroot : ∀ u, s.find (s.find u) = s.find u := hs.chained.find_find hs.chained (Extends.refl s)
  cases turn s (s.find a) (s.find b) with
  | bind i u hbinds heq =>
    refine .const (o := outcome (bindVar (.var i) u) s) ?_ fun n => by rw [hfound, heq]
    rcases bindVar_outcome (binds?_roots hs.chained hbinds (hroot a) (hroot b)).1 u with ⟨-, hout⟩ | ⟨-, e', hout, he'⟩
    · simp [hout]
    · simpa [hout] using he' hs
  | args name as bs ha hb _ heq => exact (hargs name as bs ha hb).congr fun n => by rw [hfound, heq]
  | rows fields fields' fs gs rest rest' r q ha hb hfs hgs heq =>
    rw [hs.flatten_find] at hfs hgs
    refine (hrows _ _ fs gs _ _ r q ha hb hfs hgs fun h => hrisk (.inr ?_)).congr fun n => by rw [hfound, heq]
    simpa only [SharesTail, hs.flatten_find] using h
  | done _ _ heq => exact .const (o := (.ok (), s)) (by simp) fun n => by rw [hfound, heq]; rfl
  | fail e' _ heq he' => exact .const (o := (.error e', s)) (by simpa using he' hs) fun n => by rw [hfound, heq]

/-- A call comes to an end at once if one of the types is an unbound variable or the first is the empty row. -/
theorem ends_at_once (he : e ≠ .outOfFuel) (hs : s.Settled)
    (h : s.find a = .emptyRow ∨ (∃ i, s.find a = .var i) ∨ ∃ i, s.find b = .var i) :
    Ends (fun n => unifyCautious e n a b) s := by
  refine ends_call he hs (fun name as bs ha hb => ?_) fun _ _ _ _ _ _ _ _ ha hb => ?_
  · simp [ha, hb] at h
  · simp [ha, hb] at h

theorem ends_tail (he : e ≠ .outOfFuel) (hs : s.Settled) (h : s.Flat u fs r) (ht : t.Settled)
    (hst : t.bound? = s.bound?) : Ends (fun n => unifyCautious e n r b) t := by
  refine ends_at_once he ht ?_
  rcases h.tail with rfl | ⟨i, rfl⟩
  · exact .inl rfl
  · exact .inr (.inl ⟨i, find_unbound (by rw [hst, h.unbound hs.chained])⟩)

theorem EndsBelow.mono {j k : Nat} (h : EndsBelow e k) (hjk : j ≤ k) : EndsBelow e j :=
  fun a b s C hs hC ha hb hlt => h a b s C hs hC ha hb (hlt.trans_le hjk)

/-- Calls one after the other come to an end if each does in the store before them: from the first change on there are
fewer unbound variables. -/
theorem ends_all (hs : s.Settled) (hC : s.Encloses C) (hps : ∀ p ∈ ps, p.1.Among C ∧ p.2.Among C)
    (hfewer : EndsBelow e (s.unbound C)) (hsame : ∀ p ∈ ps, Ends (fun n => unifyCautious e n p.1 p.2) s) :
    Ends (fun n => unifyAll (unifyCautious e n) ps) s := by
  induction ps generalizing s C with
  | nil => exact .const (o := (.ok (), s)) (by simp) fun _ => rfl
  | cons p ps ih =>
    obtain ⟨ha, hb⟩ := hps p (.head _)
    refine (hsame p (.head _)).bind fun n t ht => ?_
    obtain ⟨hst, hframe⟩ := cautious_frame hs hC ha hb ht
    have hps' : ∀ q ∈ ps, q.1.Among (grown C s t) ∧ q.2.Among (grown C s t) := fun q hq =>
      (hps q (.tail _ hq)).imp (·.mono subset_grown) (·.mono subset_grown)
    rcases cautious_shrinks e n _ _ s t C hs hC ha hb ht with rfl | hlt
    · exact ih hs hC (fun q hq => hps q (.tail _ hq)) hfewer fun q hq =>
        hsame q (.tail _ hq)
    · refine ih hst hframe.encloses hps' (hfewer.mono hlt.le) fun q hq => ?_
      exact hfewer _ _ _ _ hst hframe.encloses (hps' q hq).1 (hps' q hq).2 hlt

theorem Ends.one (h : Ends (fun n => unifyCautious e n a b) s) :
    Ends (fun n => unifyAll (unifyCautious e n) [(a, b)]) s :=
  h.congr fun _ => congrArg (outcome · s) (unifyAll_one a b)

theorem ends_closeRows
    (h : Ends (fun n => unifyAll (unifyCautious e n) (closing ls ms r q (.var s.vars.size))) (closingStore ls ms s)) :
    Ends (fun n => closeRows (unifyCautious e n) ls ms r q) s :=
  h.congr fun _ => outcome_closeRows _ ls ms r q s

theorem ends_closing_both (hboth : ¬ (ls = [] ∨ ms = []))
    (hleft : Ends (fun n => unifyCautious e n r (.row ls (.var s.vars.size))) (s.withFresh ("t" ++ toString s.counter)))
    (hright : ∀ d t, outcome (unifyCautious e d r (.row ls (.var s.vars.size)))
        (s.withFresh ("t" ++ toString s.counter)) = (.ok (), t) →
      Ends (fun n => unifyCautious e n q (.row ms (.var s.vars.size))) t) :
    Ends (fun n => closeRows (unifyCautious e n) ls ms r q) s := by
  refine ends_closeRows ?_
  rw [closingStore, if_neg hboth]
  simp only [closing_both hboth, unifyAll_cons]
  exact hleft.bind fun n t ht => (hright n t ht).one

/-- Two rows of which one ends in an unbound variable outside of the region get the fields they lack, if the other row can
be given a new tail. -/
theorem ends_closing_new (he : e ≠ .outOfFuel) (hs : s.Settled) (hC : s.Encloses C) (hr : r.Among C)
    (hls : ∀ p ∈ ls, p.2.Among C) (hz : s.bound? z = none) (hlt : z < s.vars.size) (hzC : z ∉ C)
    (hrest : ∀ w t, t.Settled → t.Encloses C → t.bound? = s.bound? → t.bound? w = none → w < t.vars.size → w ∉ C →
      Ends (fun n => unifyCautious e n r (.row ls (.var w))) t) :
    Ends (fun n => closeRows (unifyCautious e n) ls ms r (.var z)) s := by
  have hvar : s.find (.var z) = .var z := find_unbound hz
  obtain _ | ⟨l, ls⟩ := ls
  · refine ends_closeRows ?_
    obtain _ | ⟨m, ms⟩ := ms
    · exact (ends_at_once he hs (.inr (.inr ⟨z, hvar⟩))).one
    · exact (ends_at_once he hs (.inr (.inl ⟨z, hvar⟩))).one
  · obtain _ | ⟨m, ms⟩ := ms
    · exact ends_closeRows (hrest z s hs hC rfl hz hlt hzC).one
    · refine ends_closing_both (by simp)
        (hrest _ _ (hs.withFresh _) (hC.withFresh _) (funext (bound?_withFresh _)) ?_ ?_
        fun h => Nat.lt_irrefl _ (hC.lt _ h)) fun d t h => ?_
      · rw [bound?_withFresh, bound?_of_size_le (Nat.le_refl _)]
      · simp [withFresh]
      · -- The variable is outside of the region, so it is still unbound after the first call.
        obtain ⟨ht, hframe, -⟩ := new_tail_frame hs hC hr hls h
        refine ends_at_once he ht (.inr (.inl ⟨z, find_unbound ?_⟩))
        rw [hframe.outside z hlt hzC, hz]

/-- Giving a row a new tail comes to an end: the new tail is met at once, and what the row ends in is met either at once
or in a store with fewer unbound variables. -/
theorem ends_new_tail (he : e ≠ .outOfFuel) {k : Nat} (hbelow : EndsBelow e k) {z : Nat} (hs : s.Settled)
    (hC : s.Encloses C) (hr : r.Among C) (hls : ∀ p ∈ ls, p.2.Among C) (hz : s.bound? z = none)
    (hlt : z < s.vars.size) (hzC : z ∉ C) (hk : s.unbound C < k) :
    Ends (fun n => unifyCautious e n r (.row ls (.var z))) s := by
  induction hm : s.unbound C using Nat.strong_induction_on generalizing s C r ls z with
  | _ m ih =>
  refine ends_call he hs (fun name as bs _ hb => ?_) fun _ _ fs gs _ _ r' q _ _ hfs hgs _ => ?_
  · rw [find_of_not_var rfl] at hb
    cases hb
  rw [hs.flatten_open hz] at hgs
  obtain ⟨rfl, rfl⟩ : Dict.ofEntries ls = gs ∧ Ty.var z = q := by simpa using hgs
  obtain ⟨hr', hinf⟩ := (flat_of_flatten hfs).among hs.chained hC hr
  have hing : ∀ p ∈ Dict.ofEntries ls, p.2.Among C := fun p hp => (Dict.mem_merge hp).elim (by simp) (hls p)
  have hps := shared_among hinf hing
  refine (ends_all hs hC hps (hbelow.mono hk.le) fun p hp => hbelow _ _ _ _ hs hC (hps p hp).1 (hps p hp).2 hk).bind
    fun n t hloop => ?_
  obtain ⟨ht, hframe⟩ := cautious_frame_all hs hC hps hloop
  have hr0 : r'.Among (grown C s t) := hr'.mono subset_grown
  have hls0 : ∀ p ∈ missing fs (Dict.ofEntries ls), p.2.Among (grown C s t) := missing_among hing
  refine ends_closing_new he ht hframe.encloses hr0 hls0 (by rw [hframe.outside z hlt hzC, hz])
    (hlt.trans_le hframe.kept.size) (fun h => (mem_grown.mp h).elim hzC (by omega))
    fun w t' ht' hC' hsame hw hwlt hwC => ?_
  rcases shrinks_all hs hC (cautious_shrinks e n) hps hloop with rfl | hfewer
  · exact ends_tail he hs (flat_of_flatten hfs) ht' hsame
  · rw [← unbound_congr (t := t') fun i _ => by rw [hsame]] at hfewer
    exact ih _ (hm ▸ hfewer) ht' hC' hr0 hls0 hw hwlt hwC (hfewer.trans hk) rfl

/-- Two rows get the fields they lack, in the store in which they were flattened or in one with fewer unbound variables. -/
theorem ends_closing (he : e ≠ .outOfFuel) (hs : s.Settled) (hC : s.Encloses C) (ha : a.Among C) (hb : b.Among C)
    (hbelow : EndsBelow e (s.unbound C)) (hfs : s.flatten a = .ok (fs, r)) (hgs : s.flatten b = .ok (gs, q))
    (hno : ¬ SharesTail s a b) (ht : t.Settled) (hframe : Frame C s t) (hshrinks : Shrinks C s t) :
    Ends (fun n => closeRows (unifyCautious e n) (missing fs gs) (missing gs fs) r q) t := by
  obtain ⟨hr, hinf⟩ := (flat_of_flatten hfs).among hs.chained hC ha
  obtain ⟨hq, hing⟩ := (flat_of_flatten hgs).among hs.chained hC hb
  have hr0 : r.Among (grown C s t) := hr.mono subset_grown
  have hq0 : q.Among (grown C s t) := hq.mono subset_grown
  have hls : ∀ p ∈ missing fs gs, p.2.Among (grown C s t) := missing_among hing
  have hms : ∀ p ∈ missing gs fs, p.2.Among (grown C s t) := missing_among hinf
  by_cases hboth : missing fs gs = [] ∨ missing gs fs = []
  · have hpairs := closing_among (s := t) hls hms hr0 hq0
    have hstore : closingStore (missing fs gs) (missing gs fs) t = t := if_pos hboth
    rw [hstore, grown_self] at hpairs
    refine ends_closeRows ?_
    rw [hstore]
    refine ends_all ht hframe.encloses hpairs (hbelow.mono hshrinks.le) fun p hp => ?_
    rcases hshrinks with rfl | hfewer
    · rcases closing_fst hp with h | h
      · exact h ▸ ends_tail he hs (flat_of_flatten hfs) hs rfl
      · exact h ▸ ends_tail he hs (flat_of_flatten hgs) hs rfl
    · exact hbelow _ _ _ _ ht hframe.encloses (hpairs p hp).1 (hpairs p hp).2 hfewer
  · have hunb : (t.withFresh ("t" ++ toString t.counter)).bound? t.vars.size = none := by
      rw [bound?_withFresh, bound?_of_size_le (Nat.le_refl _)]
    rcases hshrinks with rfl | hfewer
    · refine ends_closing_both hboth (ends_tail he hs (flat_of_flatten hfs) (hs.withFresh _)
        (funext (bound?_withFresh _)))
        fun d t' h => ?_
      obtain ⟨ht', -, -⟩ := new_tail_frame hs hC hr (grown_self (C := C) ▸ hls) h
      refine ends_at_once he ht' ?_
      rcases second_tail hs (hC.scopes ha) (hC.scopes hb) hfs hgs hboth hno h with rfl | ⟨j, rfl, -, hj⟩
      · exact .inl rfl
      · exact .inr (.inl ⟨j, find_unbound hj⟩)
    · refine ends_closing_both hboth (ends_new_tail he hbelow (ht.withFresh _)
        (hframe.encloses.withFresh _) hr0 hls hunb
        (by simp [withFresh]) (fun h => Nat.lt_irrefl _ (hframe.encloses.lt _ h)) ?_) fun d t' h => ?_
      · rwa [unbound_congr fun i _ => bound?_withFresh _ i]
      · obtain ⟨ht', hframe', hsize⟩ := new_tail_frame ht hframe.encloses hr0 hls h
        have hle := new_tail_shrinks ht hframe.encloses hr0 hls (cautious_shrinks e d) h
        refine hbelow _ _ _ _ ht' hframe'.encloses (hq0.mono subset_grown) ?_ (by omega)
        exact Ty.among_row (fun p hp => (hms p hp).mono subset_grown)
          (Ty.among_var.mpr (mem_grown.mpr (.inr ⟨Nat.le_refl _, hsize⟩)))

/-- **Cautious unification comes to an end**: by induction on the unbound variables, and as long as their number does not
change, on the extent of the two types. -/
theorem ends_cautious (he : e ≠ .outOfFuel) (hs : s.Settled) (hC : s.Encloses C) (ha : a.Among C) (hb : b.Among C) :
    Ends (fun n => unifyCautious e n a b) s := by
  induction hk : s.unbound C using Nat.strong_induction_on generalizing s C a b with
  | _ k ihk =>
  have hbelow : EndsBelow e (s.unbound C) := fun a b t D ht hD ha hb hlt => ihk _ (hk ▸ hlt) ht hD ha hb rfl
  clear ihk hk
  induction hn : s.extent a + s.extent b using Nat.strong_induction_on generalizing a b with
  | _ n ihn =>
  have hfa := hs.chained.among_find hC ha
  have hfb := hs.chained.among_find hC hb
  refine ends_call he hs (fun name as bs hca hcb => ?_) fun _ _ fs gs _ _ r q _ _ hfs hgs hno => ?_
  · rw [hca] at hfa
    rw [hcb] at hfb
    refine ends_all hs hC (fun p hp => ⟨hfa.part (of_mem_zip hp).1, hfb.part (of_mem_zip hp).2⟩) hbelow
      fun p hp => ?_
    obtain ⟨hpa, hpb⟩ := of_mem_zip hp
    have hlta : s.extent p.1 < s.extent a := hs.extent_found_lt (hca ▸ hpa)
    have hltb : s.extent p.2 < s.extent b := hs.extent_found_lt (hcb ▸ hpb)
    exact ihn _ (by omega) (hfa.part hpa) (hfb.part hpb) rfl
  · obtain ⟨-, hinf⟩ := (flat_of_flatten hfs).among hs.chained hC ha
    obtain ⟨-, hing⟩ := (flat_of_flatten hgs).among hs.chained hC hb
    have hps := shared_among hinf hing
    refine (ends_all hs hC hps hbelow fun p hp => ?_).bind fun d t hloop => ?_
    · obtain ⟨x, hx, hp'⟩ := mem_filterMap.mp hp
      obtain ⟨u, hu, rfl⟩ := Option.map_eq_some_iff.mp hp'
      have hlta := (flat_of_flatten hfs).extent_lt hs x (mem_inKeyOrder.mp hx)
      have hltb := (flat_of_flatten hgs).extent_lt hs _ (Dict.mem_of_get? hu)
      exact ihn _ (by simp only at hltb ⊢; omega) (hps _ hp).1 (hps _ hp).2 rfl
    · obtain ⟨ht, hframe⟩ := cautious_frame_all hs hC hps hloop
      exact ends_closing he hs hC ha hb hbelow hfs hgs hno ht hframe
        (shrinks_all hs hC (cautious_shrinks e d) hps hloop)

end Ending

/-! ### Rows of one field

Unification gives each of two rows the other's field and a new tail. If both end in the same variable, the new rows
share their tail in turn. -/

def openRow (k : String) (i : Nat) : Ty := .row [(k, .int)] (.var i)

section OpenRows
variable {k l : String} {j : Nat}

theorem get?_single (h : k ≠ l) : Dict.get? [(k, Ty.int)] l = none := by
  rw [Dict.get?_cons, if_neg h.symm, Dict.get?_nil]

theorem missing_single (h : k ≠ l) : missing [(k, .int)] [(l, .int)] = [(l, .int)] := by
  have hfilter : List.filter (fun p : String × Ty => !Dict.has [(k, Ty.int)] p.1) [(l, .int)] = [(l, .int)] := by
    simp [Dict.has, get?_single h]
  rw [missing, hfilter]
  exact mergeSort_singleton _

theorem shared_single (h : k ≠ l) : shared [(k, .int)] [(l, .int)] = [] := by
  have hsort : inKeyOrder [(k, Ty.int)] = [(k, .int)] := mergeSort_singleton _
  simp [shared, hsort, get?_single h.symm]

theorem openRow_not_reached (hz : s.bound? z = none) (hiz : i ≠ z) (k : String) : i ∉ s.reach (openRow k z) := by
  intro h
  obtain ⟨-, v, hv, hvi⟩ := mem_reach.mp h
  obtain rfl : v = z := by simpa [openRow, Ty.vars, Ty.varsFields, Ty.int, Ty.varsAll] using hv
  rcases hvi.cases_head with rfl | ⟨w, ⟨u, hu, -⟩, -⟩
  · exact hiz rfl
  · rw [hz] at hu
    cases hu

theorem occurs_openRow (hi : s.bound? i = none) (hname : s.nameOf i ≠ s.nameOf z) (k : String) :
    s.occurs (.var i) (openRow k z) = .ok false := by
  have hsame : s.same (.var i) (.var z) = false := by
    by_contra h
    exact hname (same_unbound hi (by simpa using h)).1
  rw [openRow, occurs_row]
  show (do if ← s.occurs (.var i) .int then return true else
            if ← s.occurs (.var i) (.var z) then return true else return false) = _
  rw [occurs, hsame]
  rfl

variable (hs : s.Settled) (hi : s.bound? i = none)
include hs hi

theorem flatten_openRow (k : String) : s.flatten (openRow k i) = .ok ([(k, .int)], .var i) := hs.flatten_open hi _

theorem outcome_openRows (hj : s.bound? j = none) (hkl : k ≠ l) (f : Ty → Ty → TypeM Unit) :
    outcome (unifyFound f (openRow k i) (openRow l j)) s = outcome (do
      f (.var i) (openRow l s.vars.size)
      f (.var j) (openRow k s.vars.size)) (s.withFresh ("t" ++ toString s.counter)) := by
  have hread : ∀ k i, s.bound? i = none →
      outcome (reading fun s => s.flatten (openRow k i)) s = (.ok ([(k, .int)], .var i), s) := fun k i hi =>
    (outcome_reading _ s).trans (congrArg (·, s) (flatten_openRow hs hi k))
  have hrows : unifyFound f (openRow k i) (openRow l j) = unifyRows f (openRow k i) (openRow l j) := rfl
  rw [hrows, unifyRows, bind_ok (hread k i hi), bind_ok (hread l j hj)]
  simp only [forM_unifyField, shared_single hkl, missing_single hkl, missing_single hkl.symm]
  rfl

theorem outcome_open_tail (hz : s.bound? z = none) (hiz : i ≠ z) (k : String) (instead : TypeM Unit) (n : Nat) :
    outcome (unifyExcept Risky instead (n + 1) (.var i) (openRow k z)) s = outcome (bindVar (.var i) (openRow k z)) s ∧
      outcome (unifyWithin (n + 1) (.var i) (openRow k z)) s = outcome (bindVar (.var i) (openRow k z)) s := by
  have hrisk : ¬ Risky s (.var i) (openRow k z) := by
    rintro (⟨j, u, hbinds, hreach, -⟩ | ⟨fs, gs, j, hfs, hgs, -⟩)
    · cases hbinds
      exact openRow_not_reached hz hiz k hreach
    · rw [flatten_of_var (find_unbound hi)] at hfs
      rw [flatten_openRow hs hz] at hgs
      cases hfs
      cases hgs
      exact hiz rfl
  have hfind : s.find (openRow k z) = openRow k z := find_of_not_var rfl
  constructor
  · rw [(outcome_unifyExcept _ _ n _ _ s).2 (by rwa [find_unbound hi, hfind]), find_unbound hi, hfind]
    rfl
  · rw [outcome_unifyWithin, find_unbound hi, hfind]
    rfl

theorem settled_open_tail (hilt : i < s.vars.size) (name k : String) :
    ((s.withFresh name).setBound i (openRow k s.vars.size)).Settled ∧
      ∀ j, j ≠ i → ((s.withFresh name).setBound i (openRow k s.vars.size)).bound? j = s.bound? j := by
  have hlt := hilt.trans_le (withFresh_extends (s := s) name).size
  have hz : (s.withFresh name).bound? s.vars.size = none := by rw [bound?_withFresh, bound?_of_size_le (Nat.le_refl _)]
  refine ⟨(hs.withFresh name).setBound hlt (by rw [bound?_withFresh, hi]) (fun v hv => ?_)
    (openRow_not_reached hz (by omega) k), fun j hj => by rw [bound?_setBound hlt, if_neg hj, bound?_withFresh]⟩
  obtain rfl : v = s.vars.size := by simpa [openRow, Ty.vars, Ty.varsFields, Ty.int, Ty.varsAll] using hv
  simp [withFresh]

theorem openRows_avoid (hj : s.bound? j = none) (hilt : i < s.vars.size) (hjlt : j < s.vars.size) (hij : i ≠ j)
    (hkl : k ≠ l) (n : Nat) :
    Avoids Risky (n + 2) (openRow k i) (openRow l j) s := by
  intro instead
  have hfind : ∀ k i, s.find (openRow k i) = openRow k i := fun _ _ => find_of_not_var rfl
  have hrisk : ¬ Risky s (openRow k i) (openRow l j) := by
    rintro (⟨_, _, hbinds, -⟩ | ⟨fs, gs, m, hfs, hgs, -⟩)
    · cases hbinds
    · rw [flatten_openRow hs hi] at hfs
      rw [flatten_openRow hs hj] at hgs
      cases hfs
      cases hgs
      exact hij rfl
  have hz := bound?_of_size_le (s := s) (Nat.le_refl _)
  rw [(outcome_unifyExcept _ _ (n + 1) _ _ s).2 (by rwa [hfind, hfind]), outcome_unifyWithin, hfind, hfind,
    outcome_openRows hs hi hj hkl, outcome_openRows hs hi hj hkl]
  generalize "t" ++ toString s.counter = name
  obtain ⟨hexcept, hwithin⟩ := outcome_open_tail (hs.withFresh name) (i := i) (z := s.vars.size)
    (by rw [bound?_withFresh, hi]) (by rw [bound?_withFresh, hz]) (by omega) l instead n
  rw [outcome_bind, outcome_bind, hexcept, hwithin]
  rcases hbind : outcome (bindVar (.var i) (openRow l s.vars.size)) (s.withFresh name) with ⟨e | _, t⟩
  · rfl
  · obtain ⟨-, rfl⟩ := bindVar_returns (by rw [bound?_withFresh, hi]) hbind
    obtain ⟨ht, hkept⟩ := settled_open_tail hs hi hilt name l
    obtain ⟨hexcept, hwithin⟩ := outcome_open_tail ht (i := j) (z := s.vars.size) (by rw [hkept j hij.symm, hj])
      (by rw [hkept _ (by omega), hz]) (by omega) k instead n
    exact hexcept.trans hwithin.symm

/-- Two rows that end in the same variable and have no field in common are unified to no depth: to the new variable that
is added the same happens again. -/
theorem openRows_run_out (hilt : i < s.vars.size) (hname : s.nameOf i ≠ "t" ++ toString s.counter) (hkl : k ≠ l) (n : Nat) :
    (outcome (unifyWithin n (openRow k i) (openRow l i)) s).1 = .error .outOfFuel := by
  induction n generalizing s i k l with
  | zero => rfl
  | succ n ih =>
    have hfind : ∀ k i, s.find (openRow k i) = openRow k i := fun _ _ => find_of_not_var rfl
    rw [outcome_unifyWithin, hfind, hfind, outcome_openRows hs hi hi hkl]
    obtain _ | n := n
    · rfl
    have hz := bound?_of_size_le (s := s) (Nat.le_refl _)
    have hadds := s.withFresh_adds ("t" ++ toString s.counter)
    have hnew : (s.withFresh ("t" ++ toString s.counter)).nameOf s.vars.size = "t" ++ toString s.counter :=
      hadds.nameOf_new (i := 0) rfl
    have hunb : (s.withFresh ("t" ++ toString s.counter)).bound? i = none := by rw [bound?_withFresh, hi]
    have hocc := occurs_openRow hunb (z := s.vars.size) (by rwa [hadds.nameOf_old hilt, hnew]) l
    obtain ⟨-, hcall⟩ := outcome_open_tail (hs.withFresh _) hunb (z := s.vars.size) (by rw [bound?_withFresh, hz])
      (by omega) l (throw .outOfFuel) n
    obtain ⟨-, hbind⟩ := (bindVar_outcome hunb (openRow l s.vars.size)).resolve_right fun h => h.1 hocc
    obtain ⟨ht, hkept⟩ := settled_open_tail hs hi hilt ("t" ++ toString s.counter) l
    rw [bind_ok (hcall.trans hbind)]
    have hlt : i < (s.withFresh ("t" ++ toString s.counter)).vars.size := by
      rw [hadds.size]
      omega
    have hagain := ih ht (i := s.vars.size) (k := l) (l := k) (by rw [hkept _ (by omega), hz]) (by simp [withFresh])
      (by rw [nameOf_setBound, hnew]; exact fun h => absurd (number_of_name h) (by simp [setBound, withFresh])) hkl.symm
    rw [outcome_unifyWithin, find_of_not_var rfl, find_of_not_var rfl] at hagain
    rwa [outcome_unifyWithin, ht.chained.find_bound (u := openRow l s.vars.size)
      (by rw [bound?_setBound hlt, if_pos rfl]),
      find_of_not_var rfl, find_of_not_var rfl]

end OpenRows

/-- **Where unification comes to an end.** From a store without cycles and for any two types over it, rows that share
their tails among them, unification to all large enough depths comes to one and the same end, which is not that it ran
out of fuel; or to all large enough depths it makes a call that closes a cycle past the occurs check, or one on two rows
that end in the same variable and each lack a field of the other. -/
theorem unify_ends {a b : Ty} {s : TypeStore} (hs : s.Settled) (ha : s.Scopes a) (hb : s.Scopes b) :
    Ends (fun n => unifyWithin n a b) s ∨ ∃ N, ∀ n, N ≤ n → ¬ Avoids Risky n a b s := by
  have hends := fun e he => ends_cautious (e := e) he hs hs.closed.encloses ha.among hb.among
  have hsame : ∀ e o N, (∀ n, N ≤ n → outcome (unifyCautious e n a b) s = o) → o.1 ≠ .error e →
      ∀ n, N ≤ n → outcome (unifyWithin n a b) s = o := fun e o N hN ho n hn => by
    rcases cautious_matches e n a b s hs.chained ha hb with heq | hbad
    · rw [heq, hN n hn]
    · exact absurd (hN n hn ▸ hbad) ho
  -- What is done instead of a call at risk shows in the result, so two different failures tell whether there is one.
  obtain ⟨N, o, ho, hN⟩ := hends .tooFewTypes (by simp)
  obtain ⟨K, o', ho', hK⟩ := hends .restNotVariable (by simp)
  by_cases hrisk : o.1 = .error .tooFewTypes
  · by_cases hrisk' : o'.1 = .error .restNotVariable
    · refine .inr ⟨max N K, fun n hn havoids => ?_⟩
      have hboth : o = o' := by
        rw [← hN n (by omega), ← hK n (by omega), unifyCautious, unifyCautious, havoids, havoids]
      rw [hboth, hrisk'] at hrisk
      cases hrisk
    · exact .inl ⟨K, o', ho', hsame _ o' K hK hrisk'⟩
  · exact .inl ⟨N, o, ho, hsame _ o N hN hrisk⟩

def twoTails : TypeStore := { vars := #[⟨"r", none⟩, ⟨"q", none⟩] }

/-- Rows of one field that end in different variables. -/
theorem openRows_unify_ends : Ends (fun n => unifyWithin n (openRow "x" 0) (openRow "y" 1)) twoTails := by
  have hs : twoTails.Settled := settled_of_forward (by decide)
  refine (unify_ends hs (by unfold Scopes; decide) (by unfold Scopes; decide)).resolve_right ?_
  rintro ⟨N, hN⟩
  exact hN (N + 2) (by omega) (openRows_avoid hs rfl rfl (by decide) (by decide) (by decide) (by decide) N)

/-- Rows of one field that end in the same variable are unified to no depth. -/
theorem sharedTail_runs_out : twoTails.Settled ∧ twoTails.Scopes (openRow "x" 0) ∧ twoTails.Scopes (openRow "y" 0) ∧
    ∀ n, (outcome (unifyWithin n (openRow "x" 0) (openRow "y" 0)) twoTails).1 = .error .outOfFuel := by
  have hs : twoTails.Settled := settled_of_forward (by decide)
  exact ⟨hs, by unfold Scopes; decide, by unfold Scopes; decide,
    openRows_run_out hs rfl (by decide) (by decide) (by decide)⟩

end TypeM

end Scrap
