import Scrap.Proofs.Prelude.Lists

/-! # Quicksort

Two local functions split the rest of a list at its head. No other function is called, so the heap only grows. -/

namespace Scrap.Prelude

open Term Eval List Dict

variable {op : BinaryOp} {E env : Env} {h : Heap} {r : Int → Int → Bool} {xs : List Term} {k : Nat} {part : String}
  {c p v : Term} {t l : Term} {ys : List Term} {env₀ : Env}

/-! ### Heaps that only grow -/

theorem Intact.later {g : Heap} (hh : Intact h) (hg : h.Later g) : Intact g where
  size := Nat.le_trans hh.size hg.size
  names e f hf := by
    rw [hg.envs e (Nat.lt_of_lt_of_le (lt_of_role hf).2 hh.size)]
    exact hh.names e f hf

theorem world_later (hh : Intact h) : World (fun _ _ => True) h Heap.Later where
  int := trivial
  list _ := trivial
  later _ _ := trivial
  refl := .refl
  trans := .trans
  used := later_next
  closure _ _ := later_newClosure _ _
  intact := hh.later
  envs _ _ _ _ := trivial

/-! ### Splitting -/

/-- The integer that an item of a list of integers is. -/
def num (t : Term) : Int := t.int?.getD 0

theorem int?_eq_num (ht : t.int?.isSome = true) : t.int? = some (num t) := by
  obtain ⟨n, hn⟩ := Option.isSome_iff_exists.mp ht
  rw [num, hn]
  rfl

theorem isPlaced_int (ht : t.int?.isSome = true) : isPlaced t = true := by
  cases t <;> first | rfl | cases ht

/-- The operator compares integers by `r`. -/
def Compares (op : BinaryOp) (r : Int → Int → Bool) : Prop :=
  ∀ (g : Heap) (E : Env) (x p : Term), E.get? "x" = some x → E.get? "p" = some p → x.int?.isSome = true →
    p.int?.isSome = true → Evals g E (.binop 0 op (name "x") (name "p")) fun v g' => g' = g ∧ IsBool v (r (num x) (num p))

theorem compares_less : Compares .less fun m n => decide (m < n) := fun _ _ _ _ hx hp hxi hpi =>
  evals_binop fun j k => evals_comparison (by simp [Number.test, Number.compare?, Int.compare_eq_lt])
    (evals_var hx ⟨int?_eq_num hxi, evals_var hp ⟨int?_eq_num hpi, rfl, isBool_bool _⟩⟩) j k

theorem compares_greaterEqual : Compares .greaterEqual fun m n => decide (n ≤ m) := fun _ _ _ _ hx hp hxi hpi =>
  evals_binop fun j k => evals_comparison (by
    simp only [Number.test, Number.compare?, Except.ok.injEq]
    rw [Bool.eq_iff_iff]
    simp [Int.compare_eq_lt])
    (evals_var hx ⟨int?_eq_num hxi, evals_var hp ⟨int?_eq_num hpi, rfl, isBool_bool _⟩⟩) j k

theorem evals_partition (hh : Intact h) (hop : Compares op r) (hq : isQuote (name part) = false)
    (hpart : env.get? part = some v) (hv : Closes h v (partitionCode op) E)
    (hfilter : Serves E ("filter", 87, filterCode)) (hxs : env.get? "xs" = some (.list k xs)) (hp : env.get? "p" = some p)
    (hints : ∀ x ∈ p :: xs, x.int?.isSome = true) :
    Evals h env (call (call (name part) (name "xs")) (name "p")) fun w g =>
      h.Later g ∧ IsList g w (xs.filter fun x => r (num x) (num p)) := by
  obtain ⟨c, hc, hget⟩ := hfilter
  refine evals_apply rfl (evals_apply hq (evals_var hpart (evals_var hxs ?_)))
  refine calls_function hv (evals_closure (N := ["filter", "xs"]) rfl (fun _ => rfl) fun v1 g1 hg1 hv1 =>
    evals_var hp (calls_function hv1 ?_))
  refine evals_apply rfl (evals_apply rfl (evals_var (v := c) (by simp [get?_restrict, get?_set, hget])
    (evals_closure (N := ["p"]) rfl (fun _ => rfl) fun f g2 hg2 hf => ?_)))
  have hg := hg1.trans hg2
  have hitems : ∀ x ∈ xs, True ∧ isPlaced x = true := fun x hx => ⟨trivial, isPlaced_int (hints x (.tail _ hx))⟩
  refine ((world_later (hh.later hg)).calls_filter (p := fun x => r (num x) (num p)) trivial hitems (.refl _)
    (fun g E c k hg _ _ x hx => ?_) hc).mono fun w g hw => ?_
  · refine calls_function (hf.later (hg.trans (later_newClosure _ _))) ((hop _ _ x p ?_ ?_ (hints x (.tail _ hx))
      (hints p (.head _))).mono fun v g' hv => ?_)
    · simp [get?_set]
    · simp [get?_restrict, get?_set]
    · rw [hv.1]
      exact ⟨later_newClosure _ _, hv.2, E, closes_new k, fun _ => rfl⟩
  · refine evals_var (v := .list k xs) (by simp [get?_restrict, get?_set]) ?_
    exact (hw.2.2 _ (isList_list _ _)).mono fun u g' hu => ⟨hg.trans hu.1, hu.2⟩

/-! ### Sorting -/

/-- The items in the second list are those of the first in non-decreasing order. -/
def Sorts (xs ys : List Term) : Prop := ys.Perm xs ∧ ys.Pairwise fun a b => num a ≤ num b

theorem Sorts.pivot {zs : List Term} (hys : Sorts (xs.filter fun x => decide (num x < num p)) ys)
    (hzs : Sorts (xs.filter fun x => decide (num p ≤ num x)) zs) : Sorts (p :: xs) (ys ++ [p] ++ zs) := by
  obtain ⟨hyp, hyo⟩ := hys
  obtain ⟨hzp, hzo⟩ := hzs
  have hlt : ∀ y ∈ ys, num y < num p := fun y hy => by simpa using (mem_filter.mp (hyp.mem_iff.mp hy)).2
  have hle : ∀ z ∈ zs, num p ≤ num z := fun z hz => by simpa using (mem_filter.mp (hzp.mem_iff.mp hz)).2
  constructor
  · have hparts : (ys ++ zs).Perm xs := by
      refine (hyp.append hzp).trans ?_
      have hnot : (fun x => decide (num p ≤ num x)) = fun x => !decide (num x < num p) := funext fun x => by grind
      rw [hnot]
      exact filter_append_perm _ xs
    rw [append_assoc]
    exact perm_middle.trans (hparts.cons p)
  · rw [append_assoc, pairwise_append, singleton_append, pairwise_cons]
    refine ⟨hyo, ⟨hle, hzo⟩, fun y hy z hz => ?_⟩
    have := hlt y hy
    rcases mem_cons.mp hz with rfl | hz
    · omega
    · have := hle z hz
      omega

theorem Sorts.mem_iff (h : Sorts xs ys) {x : Term} : x ∈ ys ↔ x ∈ xs := h.1.mem_iff

theorem evals_sortedPart (hh : Intact h) (hop : Compares op r) (hq : isQuote (name part) = false)
    (hpart : env.get? part = some v) (hv : Closes h v (partitionCode op) E)
    (hfilter : Serves E ("filter", 87, filterCode)) (hxs : env.get? "xs" = some (.list k xs)) (hp : env.get? "p" = some p)
    (hints : ∀ x ∈ p :: xs, x.int?.isSome = true) (hquick : env.get? "quicksort" = some c)
    (hsort : ∀ g l, h.Later g → IsList g l (xs.filter fun x => r (num x) (num p)) →
      Calls g c l fun w g' => g.Later g' ∧ ∃ ys, IsList g' w ys ∧ Sorts (xs.filter fun x => r (num x) (num p)) ys) :
    Evals h env (sortedPart part) fun w g =>
      h.Later g ∧ ∃ ys, IsList g w ys ∧ Sorts (xs.filter fun x => r (num x) (num p)) ys := by
  refine evals_apply rfl (evals_var hquick ?_)
  refine (evals_partition hh hop hq hpart hv hfilter hxs hp hints).mono fun l g hl => ?_
  exact (hsort g l hl.1 hl.2).mono fun w g' hw => ⟨hl.1.trans hw.1, hw.2⟩

theorem calls_quicksort {h0 : Heap} (hb : Booted env₀ h0) {n : Nat}
    (hn : xs.length ≤ n) (hd : h0.Later h) (hc : Own ("quicksort", 31, quicksortCode) c) (hl : IsList h l xs)
    (hints : ∀ x ∈ xs, x.int?.isSome = true) :
    Calls h c l fun v g => h.Later g ∧ ∃ ys, IsList g v ys ∧ Sorts xs ys := by
  induction n generalizing h c l xs with
  | zero =>
    obtain ⟨E, hE, -⟩ := (world_later (hb.intact.later hd)).own (.refl h) hc
    cases length_eq_zero_iff.mp (Nat.le_zero.mp hn)
    exact calls_nil hE hl (evals_nil fun k => ⟨later_next, [], isList_list _ _, .nil, .nil⟩)
  | succ n ih =>
    obtain ⟨e, he, rfl⟩ := hc
    have hlt : e < h0.envs.size := Nat.lt_of_lt_of_le (lt_of_role he).2 hb.intact.size
    obtain ⟨hproper, hconcat, cf, hcf, hfilter⟩ := hb.sort e he
    obtain ⟨cc, hcc, hconcat⟩ := hconcat
    obtain ⟨cq, hcq, hquick⟩ := hb.intact.names e _ he
    have hcl : Closes h (.closure e (codeOf ("quicksort", 31, quicksortCode))) quicksortCode (h0.envOf e) :=
      ⟨e, _, rfl, Nat.lt_of_lt_of_le hlt hd.size, hd.envs e hlt⟩
    cases xs with
    | nil => exact calls_nil hcl hl (evals_nil fun k => ⟨later_next, [], isList_list _ _, .nil, .nil⟩)
    | cons p xs =>
      refine calls_cons hcl (by decide) hl (isPlaced_int (hints p (.head _))) fun k => ?_
      refine evals_where (N := ["filter"]) ((hproper.set _ _).set _ _) (fun _ => rfl) fun v1 g1 E1 hg1 hv1 hE1 env1 henv1 hget1 => ?_
      refine evals_where (N := ["filter"]) henv1 (fun _ => rfl) fun v2 g2 E2 hg2 hv2 hE2 env2 _ hget2 => ?_
      have hfirst : h0.Later g2 := ((hd.trans later_next).trans hg1).trans hg2
      have hname : ∀ z, z ≠ "ltp" → z ≠ "gtp" →
          env2.get? z = (((h0.envOf e).set "p" p).set "xs" (.list k xs)).get? z := fun z h1 h2 => by
        rw [hget2, if_neg h2, hget1, if_neg h1]
      have hxs : env2.get? "xs" = some (.list k xs) := by simp [hname, get?_set]
      have hp : env2.get? "p" = some p := by simp [hname, get?_set]
      have hq : env2.get? "quicksort" = some cq := by simpa [hname, get?_set] using hquick
      have hfilter1 : Serves E1 ("filter", 87, filterCode) :=
        ⟨cf, hcf, by simpa [hE1, get?_restrict, get?_set] using hfilter⟩
      have hfilter2 : Serves E2 ("filter", 87, filterCode) :=
        ⟨cf, hcf, by simpa [hE2, hget1, get?_restrict, get?_set] using hfilter⟩
      have hsort : ∀ (q : Term → Bool) g l, h0.Later g → IsList g l (xs.filter q) → Calls g cq l fun w g' =>
          g.Later g' ∧ ∃ ys, IsList g' w ys ∧ Sorts (xs.filter q) ys := fun q g l hg hl =>
        ih (Nat.le_trans (length_filter_le _ _) (Nat.le_of_succ_le_succ hn)) hg hcq hl fun x hx =>
          hints x (.tail _ (mem_filter.mp hx).1)
      refine evals_apply rfl (evals_apply rfl (evals_var (v := cc) (by simpa [hname, get?_set] using hconcat)
        (evals_append ?_)))
      refine (evals_sortedPart (hb.intact.later hfirst) compares_less rfl (by simp [hget2, hget1]) (hv1.later hg2) hfilter1
        hxs hp hints hq fun g l hg hl => hsort _ g l (hfirst.trans hg) hl).mono fun w g hw => ?_
      obtain ⟨hg, ys, hys, hsy⟩ := hw
      refine ⟨ys, hys, evals_var hp fun k' => ?_⟩
      have hsecond := (hfirst.trans hg).trans later_next
      refine (world_later (hb.intact.later hsecond)).calls_first (.refl _) rfl rfl rfl (fun _ => rfl) (by decide) hcc trivial
        fun v g3 E3 hg3 _ hv3 _ hown hget => ?_
      refine (evals_sortedPart (hb.intact.later (hsecond.trans hg3)) compares_greaterEqual rfl (by simp [hget2])
        (hv2.later ((hg.trans later_next).trans hg3)) hfilter2 hxs hp hints hq fun g l hg hl =>
          hsort _ g l ((hsecond.trans hg3).trans hg) hl).mono fun w g4 hw => ?_
      obtain ⟨hg4, zs, hzs, hsz⟩ := hw
      have hall : Sorts (p :: xs) (ys ++ [p] ++ zs) := hsy.pivot hsz
      refine ((world_later (hb.intact.later ((hsecond.trans hg3).trans hg4))).calls_concat (.refl _) (hv3.later hg4) hown hget
        (isList_list _ _) hzs fun t ht => ⟨trivial, isPlaced_int (hints t (hall.mem_iff.mp ht))⟩).mono fun u g5 hu => ?_
      exact ⟨((((later_next.trans hg1).trans hg2).trans hg).trans later_next).trans (hg3.trans (hg4.trans hu.1)), _, hu.2, hall⟩

/-- From some depth on, `quicksort xs` returns the sorted list, in each heap that has only grown since booting. -/
theorem quicksort_sorts {env₀ env : Env} {s₀ : Session} {h : Heap} {l : Term} {xs : List Term}
    (hboot : outcome (Boot.env Boot.builtins.1) { heap := Boot.builtins.2 } = (.ok env₀, s₀)) (hh : s₀.heap.Later h)
    (hquick : env.get? "quicksort" = env₀.get? "quicksort") (hxs : env.get? "xs" = some l) (hl : IsList h l xs)
    (hints : ∀ x ∈ xs, x.int?.isSome = true) : Evals h env (call (name "quicksort") (name "xs")) fun v g =>
      h.Later g ∧ ∃ ys, IsList g v ys ∧ ys.Perm xs ∧ ys.Pairwise fun a b => num a ≤ num b := by
  obtain ⟨_, _, ho, hb⟩ := boots
  cases hboot.symm.trans ho
  obtain ⟨c, hc, hget⟩ := hb.names ("quicksort", 31, quicksortCode) (by simp [functions])
  exact evals_apply rfl (evals_var (hquick.trans hget) (evals_var hxs (calls_quicksort hb (Nat.le_refl _) hh hc hl hints)))

def threeItems : List Term := [.int 0 3, .int 0 (-1), .int 0 3]

theorem threeItems_sorted : ∃ env₀ s₀, outcome (Boot.env Boot.builtins.1) { heap := Boot.builtins.2 } = (.ok env₀, s₀) ∧
    Evals s₀.heap (env₀.set "xs" (.list 1 threeItems)) (call (name "quicksort") (name "xs")) fun v g =>
      s₀.heap.Later g ∧ ∃ ys, IsList g v ys ∧ ys.Perm threeItems ∧ ys.Pairwise fun a b => num a ≤ num b := by
  obtain ⟨env₀, s₀, hboot, -⟩ := boots
  exact ⟨env₀, s₀, hboot, quicksort_sorts (l := .list 1 threeItems) hboot (.refl _) (by simp [get?_set]) (by simp [get?_set])
    (isList_list _ _) (by decide)⟩

end Scrap.Prelude
