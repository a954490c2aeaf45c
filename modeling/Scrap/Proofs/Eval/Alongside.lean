import Scrap.Proofs.Heap
import Scrap.Proofs.Term.Printing
import Scrap.Proofs.Term.Tame

/-! # Sessions of two runs

Two runs of one program that keep different parts of an environment in their closures have the same values, under the
same numbers. The environments of a closure agree on the names that its code mentions; closures that were there at the
start have the same environments in both, and no others can stand in code. -/

namespace Scrap.Eval

open Term Dict

variable {P : Parallel} {Q Q' : Term → Prop}

/-! ### Environments -/

/-- What a run keeps of an environment in a closure in place of what its code mentions, and what then holds between
the environments of a run that trims and of this one. -/
structure Keeping where
  keep : Env → Term → Except EvalError Env
  rel : Env → Env → Prop
  refl : ∀ d, rel d d
  set : ∀ {d d' : Env} (x : String) (v : Term), rel d d' → rel (d.set x v) (d'.set x v)
  merge : ∀ {d d' e : Env}, e.Proper → rel d d' → rel (d.merge e) (d'.merge e)
  define : ∀ {d d' : Env} (x : String) (v : Term), d.Proper → d'.Proper → rel d d' →
    rel (d.merge (d.set x v)) (d'.merge (d'.set x v))
  kept : ∀ {d d' : Env} {code : Term} {names : List String}, code.freeVars = .ok names → rel d d' → d'.Proper →
    ∃ k, keep d' code = .ok k ∧ rel (d.restrict names) k ∧ k.Proper ∧ (∀ p ∈ k, p ∈ d') ∧
      ∀ x ∈ names, k.get? x = d'.get? x

/-- The environments of the two runs in one place of the program: they agree on the names in `S`, and `Q` has the
closures and links in them. -/
structure Provides (K : Keeping) (Q : Term → Prop) (S : String → Prop) (env env' : Env) : Prop where
  rel : K.rel env env'
  proper : env.Proper ∧ env'.Proper
  leaves : ∀ p ∈ env, p.2.Leaves Q
  leaves' : ∀ p ∈ env', p.2.Leaves Q
  same : ∀ x, S x → env'.get? x = env.get? x

section Provides
variable {K : Keeping} {S S' : String → Prop} {env env' : Env}

theorem Provides.mono (h : Provides K Q S env env') (hQ : ∀ u, Q u → Q' u) (hS : ∀ x, S' x → S x) :
    Provides K Q' S' env env' where
  rel := h.rel
  proper := h.proper
  leaves p hp := (h.leaves p hp).mono hQ
  leaves' p hp := (h.leaves' p hp).mono hQ
  same x hx := h.same x (hS x hx)

theorem Provides.set (h : Provides K Q S env env') (x : String) {v : Term} (hv : v.Leaves Q) :
    Provides K Q (fun y => y = x ∨ S y) (env.set x v) (env'.set x v) where
  rel := K.set x v h.rel
  proper := ⟨h.proper.1.set x v, h.proper.2.set x v⟩
  leaves := values_set h.leaves hv
  leaves' := values_set h.leaves' hv
  same y hy := by
    rw [get?_set, get?_set]
    split
    · rfl
    · exact h.same y (hy.resolve_left ‹_›)

theorem Provides.merge (h : Provides K Q S env env') {names : String → Prop} {found : Env} (hf : Takes (Leaves Q) names found) :
    Provides K Q (fun y => names y ∨ S y) (env.merge found) (env'.merge found) where
  rel := K.merge hf.proper h.rel
  proper := ⟨h.proper.1.merge found, h.proper.2.merge found⟩
  leaves := values_merge h.leaves hf.values
  leaves' := values_merge h.leaves' hf.values
  same y hy := by
    rw [get?_merge hf.proper, get?_merge hf.proper]
    cases hk : found.get? y with
    | some v => rfl
    | none =>
      have hn : ¬ names y := fun hn => by
        have := hf.named y hn
        rw [hk] at this
        cases this
      exact h.same y (hy.resolve_left hn)

/-- The environment that a definition comes to is merged into the one around it. -/
theorem Provides.define (h : Provides K Q S env env') (x : String) {v : Term} (hv : v.Leaves Q) :
    Provides K Q (fun y => y = x ∨ S y) (env.merge (env.set x v)) (env'.merge (env'.set x v)) where
  rel := K.define x v h.proper.1 h.proper.2 h.rel
  proper := ⟨h.proper.1.merge _, h.proper.2.merge _⟩
  leaves := values_merge h.leaves (values_set h.leaves hv)
  leaves' := values_merge h.leaves' (values_set h.leaves' hv)
  same y hy := by
    rw [get?_merge (h.proper.1.set x v), get?_merge (h.proper.2.set x v), get?_set, get?_set]
    by_cases hyx : y = x
    · rw [if_pos hyx, if_pos hyx]
      rfl
    · rw [if_neg hyx, if_neg hyx, h.same y (hy.resolve_left hyx)]

theorem Provides.kept {code : Term} (hvars : code.freeVars.isOk = true) (h : Provides K Q code.Mentions env env') :
    ∃ k k', trimmed env code = .ok k ∧ K.keep env' code = .ok k' ∧ Provides K Q code.Mentions k k' := by
  obtain ⟨names, hnames⟩ := isOk_iff.mp hvars
  obtain ⟨k', hkeep, hrel, hproper, hmem, hsame⟩ := K.kept hnames h.rel h.proper.2
  refine ⟨env.restrict names, k', by rw [trimmed, hnames], hkeep, hrel, ⟨h.proper.1.restrict names, hproper⟩,
    fun p hp => h.leaves p (mem_restrict.mp hp).1, fun p hp => h.leaves' p (hmem p hp), ?_⟩
  rintro x ⟨ns, hns, hx⟩
  cases hnames.symm.trans hns
  rw [hsame x hx, get?_restrict, if_pos hx, h.same x ⟨names, hnames, hx⟩]

end Provides

/-! ### Sessions -/

/-- Two runs from one session: what the second keeps in closures, the closures and links that are there at the start,
the number of environments then, and the failure that ends the comparison of the runs. -/
structure Parallel where
  keeping : Keeping
  old : Term → Prop
  size : Nat
  stop : EvalError
  old_lt : ∀ e c, old (.closure e c) → e < size

/-- Code of both runs. Only closures that were there at the start stand in it. -/
structure Code (P : Parallel) (t : Term) : Prop where
  tame : t.tame = true
  leaves : t.Leaves fun u => P.old u ∧ u.isClosure = true

structure Captured (P : Parallel) (Q : Term → Prop) (h h' : Heap) (e : Nat) (c : Term) : Prop where
  lt : e < h.envs.size
  code : Code P c
  vars : c.freeVars.isOk = true
  env : Provides P.keeping Q c.Mentions (h.envOf e) (h'.envOf e)

/-- The sessions of the two runs, with the closures and links in `Q`. -/
structure Alongside (P : Parallel) (Q : Term → Prop) (s s' : Session) : Prop where
  agrees : Agrees s.heap s'.heap P.old
  seen : s'.seen = s.seen
  log : s'.log = s.log
  remembered : ∀ t ∈ s.seen, t.Leaves P.old
  untied : ∀ i, s.heap.next ≤ i → s.heap.resolve (.link i) = .link i
  size : P.size ≤ s.heap.envs.size
  old : ∀ u, P.old u → Q u
  young : ∀ e c, Q (.closure e c) → e < P.size → P.old (.closure e c)
  closures : ∀ e c, Q (.closure e c) → Captured P Q s.heap s'.heap e c
  links : ∀ i, Q (.link i) → i < s.heap.next ∧ (s.heap.resolve (.link i)).Leaves Q
  envs : ∀ e, P.keeping.rel (s.heap.envOf e) (s'.heap.envOf e)

section Code
variable {t : Term}

theorem Code.old (ht : Code P t) : t.Leaves P.old := ht.leaves.mono fun _ h => h.1

theorem Code.resolve (ht : Code P t) (h : Heap) : h.resolve t = t := by
  cases t with
  | link i => cases (ht.leaves _ .self rfl).2
  | _ => rfl

theorem Code.part (ht : Code P t) {u : Term} (hu : u ∈ t.parts) (htame : u.tame = true) : Code P u :=
  ⟨htame, ht.leaves.part hu⟩

end Code

section Alongside
variable {s s' : Session}

variable (hm : Alongside P Q s s')
include hm

theorem Alongside.resolve (t : Term) : s'.heap.resolve t = s.heap.resolve t :=
  hm.agrees.resolve t

theorem Alongside.resolves : Resolves s.heap Q := fun t ht => by
  cases t with
  | link i => exact (hm.links i (ht _ .self rfl)).2
  | _ => exact ht

theorem Alongside.remember {seen seen' : List Term} {log log' : Option (Array String)}
    (hseen : ∀ t ∈ seen, t.Leaves P.old) (hseen' : seen' = seen) (hlog : log' = log) :
    Alongside P Q { s with seen, log } { s' with seen := seen', log := log' } :=
  { hm with seen := hseen', log := hlog, remembered := hseen }

theorem Alongside.grow {g g' : Heap} (hQ : ∀ u, Q u → Q' u)
    (hnew : ∀ u, Q' u → Q u ∨ ∃ i, u = .link i ∧ i < g.next ∧ (g.resolve (.link i)).Leaves Q')
    (hl : s.heap.Later g) (hnext : g'.next = g.next) (hknots : g'.knots = g.knots)
    (hsize : g.envs.size = s.heap.envs.size ∧ g'.envs.size = s'.heap.envs.size)
    (henvs : ∀ e, g.envOf e = s.heap.envOf e ∧ g'.envOf e = s'.heap.envOf e)
    (huntied : ∀ i, g.next ≤ i → g.resolve (.link i) = .link i) :
    Alongside P Q' { s with heap := g } { s' with heap := g' } := by
  have holdLinks : Resolves g P.old := fun t ht => by
    cases t with
    | link i =>
      have hi := hm.links i (hm.old _ (ht _ .self rfl))
      rw [hl.knots i hi.1]
      exact hm.agrees.resolves _ ht
    | _ => exact ht
  refine { hm with
    agrees := ⟨hnext, hsize.2.trans (hm.agrees.size.trans hsize.1.symm), hknots, holdLinks, fun e c hc => ?_⟩
    untied := huntied
    size := Nat.le_trans hm.size hl.size
    old := fun u hu => hQ u (hm.old u hu)
    young := fun e c hc he => ?_
    closures := fun e c hc => ?_
    links := fun i hi => ?_
    envs := fun e => ?_ }
  · have he := hm.agrees.envs e c hc
    exact ⟨((henvs e).2.trans he.same).trans (henvs e).1.symm, (henvs e).1.symm ▸ he.leaves⟩
  · rcases hnew _ hc with hc | ⟨i, h, -⟩
    · exact hm.young e c hc he
    · cases h
  · rcases hnew _ hc with hc | ⟨i, h, -⟩
    · obtain ⟨hlt, hcode, hvars, henv⟩ := hm.closures e c hc
      refine ⟨Nat.lt_of_lt_of_le hlt hl.size, hcode, hvars, ?_⟩
      rw [(henvs e).1, (henvs e).2]
      exact henv.mono hQ fun _ h => h
    · cases h
  · rcases hnew _ hi with hi | ⟨j, h, hj⟩
    · obtain ⟨hlt, hres⟩ := hm.links i hi
      refine ⟨Nat.lt_of_lt_of_le hlt hl.next, ?_⟩
      show (g.resolve _).Leaves Q'
      rw [hl.knots i hlt]
      exact hres.mono hQ
    · cases h
      exact hj
  · show P.keeping.rel (g.envOf e) (g'.envOf e)
    rw [(henvs e).1, (henvs e).2]
    exact hm.envs e

theorem Alongside.skip {n n' : Nat} (hn : s.heap.next ≤ n) (hnn' : n' = n) :
    Alongside P Q { s with heap := { s.heap with next := n } } { s' with heap := { s'.heap with next := n' } } :=
  hm.grow (fun _ h => h) (fun _ h => .inl h) ⟨hn, Nat.le_refl _, fun _ _ => rfl, fun _ _ => rfl⟩ hnn' hm.agrees.knots
    ⟨rfl, rfl⟩ (fun _ => ⟨rfl, rfl⟩) fun i hi => hm.untied i (Nat.le_trans hn hi)

theorem Alongside.capture {code : Term} (hcode : Code P code)
    (hvars : code.freeVars.isOk = true) {k k' : Env} (hk : Provides P.keeping Q code.Mentions k k') :
    Alongside P (fun u => Q u ∨ u = .closure s.heap.envs.size code)
      { s with heap := (s.heap.newClosure k code).2 } { s' with heap := (s'.heap.newClosure k' code).2 } := by
  have hsize : s'.heap.envs.size = s.heap.envs.size := hm.agrees.size
  have hold : ∀ e c, P.old (.closure e c) → e ≠ s.heap.envs.size := fun e c hc =>
    Nat.ne_of_lt (Nat.lt_of_lt_of_le (P.old_lt e c hc) hm.size)
  have henv : ∀ e, (s.heap.newClosure k code).2.envOf e = if e = s.heap.envs.size then k else s.heap.envOf e :=
    fun _ => Heap.envOf_push
  have henv' : ∀ e, (s'.heap.newClosure k' code).2.envOf e = if e = s.heap.envs.size then k' else s'.heap.envOf e :=
    fun _ => hsize ▸ Heap.envOf_push
  refine { hm with
    agrees := ⟨hm.agrees.next, ?_, hm.agrees.knots, hm.agrees.resolves, fun e c hc => ?_⟩
    size := ?_
    old := fun u hu => .inl (hm.old u hu)
    young := fun e c hc he => ?_
    closures := fun e c hc => ?_
    links := fun i hi => ?_
    envs := fun e => ?_ }
  · show (s'.heap.envs.push k').size = (s.heap.envs.push k).size
    rw [Array.size_push, Array.size_push, hsize]
  · obtain ⟨hs, hl⟩ := hm.agrees.envs e c hc
    refine ⟨?_, ?_⟩ <;> simp only [henv, henv', if_neg (hold e c hc)]
    · exact hs
    · exact hl
  · show P.size ≤ (s.heap.envs.push k).size
    rw [Array.size_push]
    exact Nat.le_succ_of_le hm.size
  · rcases hc with hc | hc
    · exact hm.young e c hc he
    · cases hc
      exact (Nat.not_lt.mpr hm.size he).elim
  · have hlt : ∀ {j}, j ≤ s.heap.envs.size → j < (s.heap.newClosure k code).2.envs.size := fun hj => by
      show _ < (s.heap.envs.push k).size
      rw [Array.size_push]
      omega
    by_cases he : e = s.heap.envs.size
    · rcases hc with hc | hc
      · exact (Nat.lt_irrefl _ (he ▸ (hm.closures e c hc).lt)).elim
      · cases hc
        refine ⟨hlt (Nat.le_refl _), hcode, hvars, ?_⟩
        simp only [henv, henv', if_true]
        exact hk.mono (fun _ => Or.inl) fun _ h => h
    · rcases hc with hc | hc
      · obtain ⟨hc1, hc2, hc3, hc4⟩ := hm.closures e c hc
        refine ⟨hlt (Nat.le_of_lt hc1), hc2, hc3, ?_⟩
        simp only [henv, henv', if_neg he]
        exact hc4.mono (fun _ => Or.inl) fun _ h => h
      · cases hc
        exact (he rfl).elim
  · rcases hi with hi | hi
    · exact ⟨(hm.links i hi).1, (hm.links i hi).2.mono fun _ => Or.inl⟩
    · cases hi
  · rw [henv, henv']
    split
    · exact hk.rel
    · exact hm.envs e

theorem Alongside.bind {e : Nat} {code : Term} (hc : Q (.closure e code)) (x : String) :
    Alongside P Q { s with heap := s.heap.bind e x (.closure e code) }
      { s' with heap := s'.heap.bind e x (.closure e code) } := by
  have hcap := hm.closures e code hc
  have hlt' : e < s'.heap.envs.size := hm.agrees.size ▸ hcap.lt
  have henv : ∀ j, (s.heap.bind e x (.closure e code)).envOf j =
      if j = e then (s.heap.envOf e).set x (.closure e code) else s.heap.envOf j :=
    fun j => Heap.envOf_setEnv hcap.lt _ j
  have henv' : ∀ j, (s'.heap.bind e x (.closure e code)).envOf j =
      if j = e then (s'.heap.envOf e).set x (.closure e code) else s'.heap.envOf j :=
    fun j => Heap.envOf_setEnv hlt' _ j
  have hsize : (s.heap.bind e x (.closure e code)).envs.size = s.heap.envs.size := Heap.size_setEnv _ _ _
  have hsize' : (s'.heap.bind e x (.closure e code)).envs.size = s'.heap.envs.size := Heap.size_setEnv _ _ _
  have hvalue : (Term.closure e code).Leaves Q := leaves_closure.mpr ⟨hc, hcap.code.old.mono hm.old⟩
  refine { hm with
    agrees := ⟨hm.agrees.next, ?_, hm.agrees.knots, hm.agrees.resolves, fun j c hj => ?_⟩
    size := ?_
    closures := fun j c hj => ?_
    envs := fun j => ?_ }
  · show (s'.heap.bind e x _).envs.size = (s.heap.bind e x _).envs.size
    rw [hsize, hsize', hm.agrees.size]
  · obtain ⟨hs, hl⟩ := hm.agrees.envs j c hj
    by_cases hje : j = e
    · -- the closure was there at the start, and so was this one
      subst hje
      have hold : (Term.closure j code).Leaves P.old :=
        leaves_closure.mpr ⟨hm.young j code hc (P.old_lt j c hj), hcap.code.old⟩
      refine ⟨?_, ?_⟩ <;> simp only [henv, henv', if_true]
      · rw [hs]
      · exact values_set hl hold
    · refine ⟨?_, ?_⟩ <;> simp only [henv, henv', if_neg hje]
      · exact hs
      · exact hl
  · show P.size ≤ (s.heap.bind e x _).envs.size
    rw [hsize]
    exact hm.size
  · obtain ⟨hc1, hc2, hc3, hc4⟩ := hm.closures j c hj
    refine ⟨hsize.symm ▸ hc1, hc2, hc3, ?_⟩
    by_cases hje : j = e
    · subst hje
      simp only [henv, henv', if_true]
      exact (hc4.set x hvalue).mono (fun _ h => h) fun _ => Or.inr
    · simp only [henv, henv', if_neg hje]
      exact hc4
  · simp only [henv, henv']
    split
    · exact P.keeping.set x _ (hm.envs e)
    · exact hm.envs j

end Alongside

end Scrap.Eval
