import Scrap.Proofs.Runs
import Scrap.Proofs.Term.Identity
import Scrap.Proofs.Term.Matching
import Scrap.Proofs.Term.Written

/-! # Printed terms

The printer gives the written form of a term that can be written: since no term equals one inside of it, it never takes
a term for one that it is inside of. -/

namespace Scrap

open List

variable {h : Heap} {a b c e : Term} {cs : List (Term × Term)} {seen : List Term} {t u : Term}

namespace Term

/-! ### No term equals one inside of it -/

theorem Inside.sizeOf_le (h : u.Inside t) : sizeOf u ≤ sizeOf t := by
  induction h with
  | self => exact Nat.le_refl _
  | part hu _ ih => exact Nat.le_trans ih (Nat.le_of_lt (sizeOf_lt_of_mem_parts hu))

/-- Inside of a term, and not the term itself. -/
def Below (u t : Term) : Prop := ∃ v ∈ t.parts, u.Inside v

theorem Below.sizeOf_lt : u.Below t → sizeOf u < sizeOf t
  | ⟨_, hv, hu⟩ => Nat.lt_of_le_of_lt hu.sizeOf_le (sizeOf_lt_of_mem_parts hv)

theorem Below.part {v : Term} (h : u.Below t) (hv : v ∈ u.parts) : v.Below t := by
  obtain ⟨w, hw, hu⟩ := h
  exact ⟨w, hw, (Inside.part hv .self).trans hu⟩

/-- Terms of one identity are one term. -/
def Coherent (t : Term) : Prop := ∀ u v : Term, u.Inside t → v.Inside t → u.same v = true → u = v

section Equality
variable {envs : Nat → Nat → Bool} {far : Term → Term → Bool}

theorem pair_parts {d : Term} (hac : a.equalWith h envs far c = true) (hbd : b.equalWith h envs far d = true) :
    ∀ u ∈ [a, b], ∃ v ∈ [c, d], u.equalWith h envs far v = true := by
  simp only [mem_cons, not_mem_nil, or_false, forall_eq_or_imp, forall_eq]
  exact ⟨⟨c, .inl rfl, hac⟩, ⟨d, .inr rfl, hbd⟩⟩

/-- The parts of a term are equal to parts of an equal term, if terms of one identity are one term. -/
theorem part_of_equalWith {s : Term} (hsame : s.same t = true → s = t) (hs : s.isLeaf = false) (ht : t.isLeaf = false)
    (heq : s.equalWith h envs far t = true) :
    s = t ∨ ∀ u ∈ s.parts, ∃ v ∈ t.parts, u.equalWith h envs far v = true := by
  by_cases hst : s.same t = true
  · exact .inl (hsame hst)
  refine .inr ?_
  rw [Bool.not_eq_true] at hst
  rw [equalWith.eq_def] at heq
  cases s with
  | binop i op l r =>
    simp only [hst, Bool.false_or] at heq
    split at heq
    · simp only [Bool.and_eq_true] at heq
      exact pair_parts heq.1.2 heq.2
    · cases heq
  | function i p b | apply i p b | scope i p b | assert i p b | matchCase i p b | access i p b =>
    simp only [hst, Bool.false_or] at heq
    split at heq
    · rw [Bool.and_eq_true] at heq
      exact pair_parts heq.1 heq.2
    · cases heq
  | assign i x v | variant i x v =>
    simp only [hst, Bool.false_or] at heq
    split at heq
    · rw [Bool.and_eq_true] at heq
      intro u hu
      cases mem_singleton.mp hu
      exact ⟨_, mem_singleton_self _, heq.2⟩
    · cases heq
  | list i items =>
    simp only [hst, Bool.false_or] at heq
    split at heq
    · exact exists_of_forall₂ (equalAll_iff.mp heq)
    · cases ht
    · cases heq
  | record i fields | environment i fields =>
    simp only [hst, Bool.false_or] at heq
    split at heq <;> try cases ht
    · rw [Bool.and_eq_true] at heq
      refine forall_mem_map.mpr fun p hp => ?_
      obtain ⟨w, hw, heq⟩ := equalFields_iff.mp heq.2 p hp
      exact ⟨w, mem_map_of_mem (Dict.mem_of_get? hw), heq⟩
    · cases heq
  | matchFunction i cases =>
    simp only [hst, Bool.false_or] at heq
    split at heq
    · intro u hu
      obtain ⟨c, hc, hu⟩ := mem_flatMap.mp hu
      obtain ⟨d, hd, hp, hb⟩ := exists_of_forall₂ (equalCases_iff.mp heq) c hc
      rcases mem_pair.mp hu with rfl | rfl
      · exact ⟨d.1, mem_flatMap_of_mem hd (.head _), hp⟩
      · exact ⟨d.2, mem_flatMap_of_mem hd (.tail _ (.head _)), hb⟩
    · cases heq
  | closure e c | link i => cases hs
  | _ => exact fun u hu => absurd hu not_mem_nil

theorem inside_of_equalWith (he : e.Coherent) (hleaf : ∀ u : Term, u.Inside e → u.isLeaf = false)
    (hc : c.Inside a) (ha : a.Inside e) (hb : b.Inside e) (hab : a.equalWith h envs far b = true) :
    ∃ d : Term, d.Inside b ∧ (c = d ∨ c.equalWith h envs far d = true) := by
  induction hc generalizing b with
  | self => exact ⟨b, .self, .inr hab⟩
  | @part a u hu hcu ih =>
    rcases part_of_equalWith (he a b ha hb) (hleaf a ha) (hleaf b hb) hab with rfl | hparts
    · exact ⟨c, .part hu hcu, .inl rfl⟩
    · obtain ⟨v, hv, huv⟩ := hparts u hu
      obtain ⟨d, hd, hcd⟩ := ih ((Inside.part hu .self).trans ha) ((Inside.part hv .self).trans hb) huv
      exact ⟨d, .part hv hd, hcd⟩

/-- No term equals one inside of it: following the way from the outer to the inner term from there on would never end. -/
theorem not_equalWith_of_below {e s t : Term} (he : e.Coherent) (hleaf : ∀ u : Term, u.Inside e → u.isLeaf = false)
    (hs : s.Inside e) (hts : t.Below s) : s.equalWith h envs far t = false := by
  rw [← Bool.not_eq_true]
  intro hst
  obtain ⟨u, hu, htu⟩ := hts
  have hte : t.Inside e := (Inside.part hu htu).trans hs
  have hlt : sizeOf t < sizeOf s := Below.sizeOf_lt ⟨u, hu, htu⟩
  rcases part_of_equalWith (he s t hs hte) (hleaf s hs) (hleaf t hte) hst with rfl | hparts
  · exact Nat.lt_irrefl _ hlt
  · obtain ⟨v, hv, huv⟩ := hparts u hu
    obtain ⟨d, hd, htd⟩ := inside_of_equalWith he hleaf htu ((Inside.part hu .self).trans hs)
      ((Inside.part hv .self).trans hte) huv
    have hdt : d.Below t := ⟨v, hv, hd⟩
    rcases htd with rfl | htd
    · exact Nat.lt_irrefl _ hdt.sizeOf_lt
    · rw [not_equalWith_of_below he hleaf hte hdt] at htd
      cases htd
termination_by sizeOf s

end Equality

theorem Inside.isPart (h : u.Inside t) (ht : t.isPart = true) : u.isPart = true := by
  induction h with
  | self => exact ht
  | part hu _ ih => exact ih (isPart_of_mem_parts ht hu)

theorem isLeaf_of_isPart (ht : t.isPart = true) : t.isLeaf = false := by
  cases t <;> first | rfl | cases ht

theorem exists_of_mem_parts_bare (ht : t.isPart = true) (hu : u ∈ t.bare.parts) : ∃ v ∈ t.parts, u = v.bare := by
  cases t with
  | list i items =>
    rw [bare, parts, bareAll_eq_map] at hu
    obtain ⟨v, hv, rfl⟩ := mem_map.mp hu
    exact ⟨v, hv, rfl⟩
  | record i fields =>
    obtain ⟨p, hp, rfl⟩ := mem_map.mp hu
    obtain ⟨f, hf, rfl⟩ := mem_map.mp (bareFields_eq_mapValues fields ▸ hp)
    exact ⟨f.2, mem_parts_fields hf, rfl⟩
  | matchFunction i cases =>
    obtain ⟨p, hp, hu⟩ := mem_flatMap.mp hu
    obtain ⟨c, hc, rfl⟩ := mem_map.mp (bareCases_eq_map cases ▸ hp)
    rcases mem_pair.mp hu with rfl | rfl
    · exact ⟨c.1, (mem_parts_cases hc).1, rfl⟩
    · exact ⟨c.2, (mem_parts_cases hc).2, rfl⟩
  | function i l r | apply i l r | access i l r | scope i l r | binop i op l r =>
    simp only [bare, parts, mem_cons, not_mem_nil, or_false] at hu
    rcases hu with rfl | rfl
    · exact ⟨l, .head _, rfl⟩
    · exact ⟨r, .tail _ (.head _), rfl⟩
  | assign i x v =>
    cases mem_singleton.mp hu
    exact ⟨v, .head _, rfl⟩
  | _ => first | (cases hu; done) | cases ht

theorem Inside.exists_bare (h : u.Inside t.bare) (ht : t.isPart = true) : ∃ v : Term, v.isPart = true ∧ u = v.bare := by
  generalize hs : t.bare = s at h
  induction h generalizing t with
  | self => exact ⟨t, ht, hs.symm⟩
  | part hv _ ih =>
    subst hs
    obtain ⟨w, hw, rfl⟩ := exists_of_mem_parts_bare ht hv
    exact ih (isPart_of_mem_parts ht hw) rfl

theorem Inside.unplaced (h : u.Inside t.bare) (ht : t.isPart = true) : u.isClosure = false ∧ u.id = 0 := by
  obtain ⟨w, hw, rfl⟩ := h.exists_bare ht
  cases w <;> first | exact ⟨rfl, rfl⟩ | cases hw

theorem coherent_of_unplaced (h : ∀ u : Term, u.Inside t → u.isClosure = false ∧ u.id = 0) : t.Coherent := by
  intro u v hu _ hsame
  rw [same_eq, (h u hu).1, (h u hu).2] at hsame
  simp at hsame

theorem equal_eq_equalWith (h : Heap) : ∃ envs far, ∀ a b : Term, a.equal h b = a.equalWith h envs far b := by
  obtain ⟨n, hn⟩ : ∃ n, comparisons h = n + 1 := by
    refine Nat.exists_eq_succ_of_ne_zero (Nat.mul_ne_zero ?_ ?_) <;> unfold Heap.turns <;> omega
  refine ⟨equalEnvs h (equalWithin h true n), equalWithin h true n, fun a b => ?_⟩
  rw [equal, hn, equalWithin]

theorem equal_self (h : Heap) (ht : t.isPart = true) : t.equal h t = true := by
  obtain ⟨envs, far, heq⟩ := equal_eq_equalWith h
  rw [heq]
  exact equalWith_of_bare_eq h envs far t t ht rfl

end Term

namespace Printer

open Term

/-! ### The printer gives the written form -/

theorem outcome_inside (h : Heap) (t : Term) (body : Printer String) (seen : List Term) :
    outcome (Printer.inside h t body) seen =
      if seen.any t.same then (.ok "...", seen)
      else
        match outcome body (seen ++ [t]) with
        | (.ok s, seen') => (.ok s, forget h t seen')
        | (.error x, seen') => (.error x, seen') := by
  unfold Printer.inside
  rw [bind_ok (show outcome (get : Printer (List Term)) seen = (.ok seen, seen) from rfl)]
  split
  · rfl
  · show outcome (body >>= fun s => modify (forget h t) >>= fun _ => Pure.pure s) (seen ++ [t]) = _
    rw [outcome_bind]
    rcases outcome body (seen ++ [t]) with ⟨x | s, seen'⟩ <;> rfl

/-- The printer is inside of terms that `t` is below of. -/
structure Above (e t : Term) (seen : List Term) : Prop where
  inside : t.Inside e
  seen : ∀ s ∈ seen, s.Inside e ∧ t.Below s

theorem Above.part (h : Above e t seen) (hu : u ∈ t.parts) : Above e u (seen ++ [t]) := by
  refine ⟨(Inside.part hu .self).trans h.inside, fun s hs => ?_⟩
  rcases mem_append.mp hs with hs | hs
  · exact ⟨(h.seen s hs).1, (h.seen s hs).2.part hu⟩
  · cases mem_singleton.mp hs
    exact ⟨h.inside, u, hu, .self⟩

section Printing
variable {far : Term → Strength → Printer String}

theorem outcome_inside_above (he : e.Coherent) (hleaf : ∀ u : Term, u.Inside e → u.isLeaf = false)
    (ht : Above e t seen) (hself : t.equal h t = true) {body : Printer String} {s : String}
    (hbody : outcome body (seen ++ [t]) = (.ok s, seen ++ [t])) :
    outcome (Printer.inside h t body) seen = (.ok s, seen) := by
  have hany : seen.any t.same = false := by
    rw [any_eq_false]
    intro u hu hsame
    have hlt := (ht.seen u hu).2.sizeOf_lt
    cases he t u ht.inside (ht.seen u hu).1 hsame
    exact Nat.lt_irrefl _ hlt
  have hforget : forget h t (seen ++ [t]) = seen := by
    rw [forget, eraseP_append_right]
    · rw [eraseP_cons_of_pos, append_nil]
      rw [hself, Bool.or_true]
    · intro u hu
      have hut : u.equal h t = false := by
        obtain ⟨envs, far, heq⟩ := equal_eq_equalWith h
        rw [heq]
        exact not_equalWith_of_below he hleaf (ht.seen u hu).1 (ht.seen u hu).2
      rw [hut, Bool.or_false, same_comm]
      exact any_eq_false.mp hany u hu
  rw [outcome_inside, hany, hbody]
  simp only [Bool.false_eq_true, if_false, hforget]

theorem outcome_integer {n : Int} {s : String} (hn : Text.intText? n = some s) :
    outcome (integer n) seen = (.ok s, seen) := by
  unfold integer
  simp only [hn]
  rfl

theorem printAll_eq (ts : List Term) : printAll h far ts = ts.mapM fun t => printWith h far t 0 := by
  induction ts with
  | nil => rfl
  | cons t ts ih => rw [printAll, ih, mapM_cons]

theorem printFields_eq (fs : Dict Term) : printFields h far fs =
    fs.mapM fun f => printWith h far f.2 0 >>= fun s => pure (f.1 ++ " = " ++ s) := by
  induction fs with
  | nil => rfl
  | cons f fs ih => simp [printFields, ih]

theorem printCases_eq (cs : List (Term × Term)) : printCases h far cs =
    cs.mapM fun c => printWith h far c.1 (Operator.binding "|").left >>= fun p =>
      printWith h far c.2 (Operator.binding "|").right >>= fun b => pure ("| " ++ p ++ " -> " ++ b) := by
  induction cs with
  | nil => rfl
  | cons c cs ih => simp [printCases, ih]

theorem outcome_printWith (he : e.Coherent) (hleaf : ∀ u : Term, u.Inside e → u.isLeaf = false) (t : Term)
    (place : Strength) (seen : List Term) (ht : t.isPart = true) (habove : Above e t seen) :
    outcome (printWith h far t place) seen = (.ok (written t place), seen) := by
  induction t using parts_induction generalizing place seen with
  | step t ih =>
    have hself := equal_self h ht
    have part u (hu : u ∈ t.parts) := fun place => ih u hu place _ (isPart_of_mem_parts ht hu) (habove.part hu)
    cases t with
    | int i n =>
      simp only [isPart, isWritable, Parser.isSpread, Bool.or_false] at ht
      rw [printWith, written]
      exact outcome_inside_above he hleaf habove hself (outcome_integer (intText?_of_isNumeral ht))
    | hole i | string i s | var i x | spread i x =>
      rw [printWith, written]
      exact outcome_inside_above he hleaf habove hself rfl
    | list i items =>
      rw [printWith, written]
      refine outcome_inside_above he hleaf habove hself ?_
      rw [printAll_eq, writtenItems_eq]
      exact bind_ok (outcome_mapM fun u hu => part u hu 0)
    | record i fields =>
      rw [printWith, written]
      refine outcome_inside_above he hleaf habove hself ?_
      rw [printFields_eq, writtenFields_eq]
      exact bind_ok (outcome_mapM fun f hf => bind_ok (part f.2 (mem_parts_fields hf) 0))
    | matchFunction i cases =>
      rw [printWith, written]
      refine outcome_inside_above he hleaf habove hself ?_
      rw [printCases_eq, writtenCases_eq]
      exact bind_ok (outcome_mapM fun c hc => (bind_ok (part c.1 (mem_parts_cases hc).1 _)).trans
        (bind_ok (part c.2 (mem_parts_cases hc).2 _)))
    | assign i x v =>
      have hv : v ∈ (assign i x v).parts := .head _
      rw [printWith, written]
      refine outcome_inside_above he hleaf habove hself ?_
      rw [bind_ok (part v hv _)]
      rfl
    | scope i l r | apply i l r | access i l r =>
      have hl := mem_cons_self (a := l) (l := [r])
      have hr := mem_cons_of_mem l (mem_singleton_self r)
      rw [printWith, written]
      refine outcome_inside_above he hleaf habove hself ?_
      rw [bind_ok (part l hl _), bind_ok (part r hr _)]
      rfl
    | binop i op l r =>
      have hl := mem_cons_self (a := l) (l := [r])
      have hr := mem_cons_of_mem l (mem_singleton_self r)
      have hop : op.isWritten = true := by
        simp only [isPart, isWritable, Parser.isSpread, Bool.or_false, Bool.and_eq_true] at ht
        exact ht.1.1
      rw [printWith, written]
      refine outcome_inside_above he hleaf habove hself ?_
      rw [BinaryOp.symbol?_of_isWritten hop]
      show outcome (printWith h far l _ >>= _) _ = _
      rw [bind_ok (part l hl _), bind_ok (part r hr _)]
      rfl
    | function i p b =>
      have hb : b ∈ (function i p b).parts := .tail _ (.head _)
      cases p <;> simp only [isPart, isWritable, Parser.isSpread, Bool.or_false, Bool.false_eq_true] at ht
      rename_i j x
      rw [printWith, written]
      refine outcome_inside_above he hleaf habove hself ?_
      have hbody : b.isPart = true := by rw [isPart, (Bool.and_eq_true_iff.mp ht).2, Bool.true_or]
      show outcome (printWith h far b _ >>= _) _ = _
      rw [bind_ok (ih b hb _ _ hbody (habove.part hb))]
      rfl
    | _ => cases ht

end Printing

end Printer

theorem Term.pretty_eq_written (he : e.Coherent) (hw : e.isWritable = true) : e.pretty h = .ok (written e 0) := by
  have hp : e.isPart = true := by rw [isPart, hw, Bool.true_or]
  have hprint : outcome (Printer.printWith h (Printer.printWithin h h.knots.length) e 0) [] = (.ok (written e 0), []) :=
    Printer.outcome_printWith he (fun u hu => isLeaf_of_isPart (hu.isPart hp)) e 0 [] hp ⟨.self, fun _ hv => by cases hv⟩
  exact congrArg Prod.fst hprint

end Scrap
