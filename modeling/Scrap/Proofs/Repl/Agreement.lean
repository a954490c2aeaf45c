import Scrap.Proofs.Eval.Depth
import Scrap.Proofs.Repl.Failures

/-! # Scopes, chains and interactive sessions

A term inside of a scope for each definition, the definitions and the term in a chain, and all of them in an
interactive session come to the same value, or to the same failure at the same definition. Scopes take more depth, so
this is said of all depths that are large enough. -/

namespace Scrap

open Eval Filter List

variable {x : EvalError} {r : Except EvalError Term} {value : Term} {env : Env} {s s' : Session}

/-- A definition, with the identity of the scope that is made for it. -/
structure Definition where
  scope : Nat
  id : Nat
  name : String
  source : Term

def Definition.term (d : Definition) : Term := .assign d.id d.name d.source

/-- A term inside of a scope for each definition, the first one outermost. -/
def nested : List Definition → Term → Term
  | [], t => t
  | d :: ds, t => .scope d.scope (nested ds t) d.term

def listed (ds : List Definition) (t : Term) : List Term := ds.map Definition.term ++ [t]

/-! ### Courses -/

/-- What terms come to one after the other: the value of each and the environment after it, up to the first one that
fails. -/
structure Course where
  steps : List (Term × Env) := []
  failure : Option EvalError := none
  session : Session

namespace Course

variable {c : Course}

def result (c : Course) : Option (Except EvalError Term) :=
  match c.failure with
  | some x => some (.error x)
  | none => c.steps.getLast?.map fun p => .ok p.1

def cons (value : Term) (env : Env) (c : Course) : Course := { c with steps := (value, env) :: c.steps }

theorem result_cons (h : c.result ≠ none) (value : Term) (env : Env) : (c.cons value env).result = c.result := by
  obtain ⟨steps, failure, session⟩ := c
  cases failure with
  | some x => rfl
  | none =>
    cases steps with
    | nil => exact absurd rfl h
    | cons p ps => simp [result, cons]

theorem cons_injective {c' : Course} (h : c.cons value env = c'.cons value env) : c = c' := by
  obtain ⟨steps, failure, session⟩ := c
  obtain ⟨steps', failure', session'⟩ := c'
  cases h
  rfl

end Course

def Chain.course (depth : Nat) (env : Env) : List Term → Session → Course
  | [], s => { session := s }
  | t :: ts, s =>
    match outcome (bind depth env t) s with
    | (.error x, s) => { failure := some x, session := s }
    | (.ok (value, env), s) => (course depth env ts s).cons value env

def Repl.course (depth : Nat) : Repl → List Term → Course
  | r, [] => { session := r.session }
  | r, t :: ts =>
    match r.settle depth t with
    | (.error x, r) => { failure := some x, session := r.session }
    | (.ok value, r) => (course depth r ts).cons value r.env

namespace Chain
variable {n : Nat} {env : Env} {t : Term} {ts : List Term} {s s' : Session}

theorem course_of_error (h : outcome (eval n env t) s = (.error x, s')) :
    course n env (t :: ts) s = { failure := some x, session := s' } := by
  have hbind : outcome (bind n env t) s = (.error x, s') := by rw [bind, outcome_bind, h]
  rw [course, hbind]

theorem course_of_ok (h : outcome (eval n env t) s = (.ok value, s')) :
    course n env (t :: ts) s = (course n (after env value) ts s').cons value (after env value) := by
  have hbind : outcome (bind n env t) s = (.ok (value, after env value), s') := by
    rw [bind, bind_ok h]
    rfl
  rw [course, hbind]

theorem result_course (hts : ts ≠ []) : (course n env ts s).result ≠ none := by
  induction ts generalizing env s with
  | nil => exact absurd rfl hts
  | cons t ts ih =>
    rcases h : outcome (eval n env t) s with ⟨x | value, s'⟩
    · rw [course_of_error h]
      exact Option.some_ne_none _
    · rw [course_of_ok h]
      cases ts with
      | nil => exact Option.some_ne_none _
      | cons u us =>
        rw [Course.result_cons (ih (cons_ne_nil u us))]
        exact ih (cons_ne_nil u us)

theorem course_keeps (n : Nat) (env : Env) (ts : List Term) (s : Session) : s.Kept (course n env ts s).session := by
  induction ts generalizing env s with
  | nil => exact ⟨.refl _, fun h => h⟩
  | cons t ts ih =>
    have hkept := keeps_eval n env t s
    rcases h : outcome (eval n env t) s with ⟨x | value, s'⟩ <;> rw [h] at hkept
    · rw [course_of_error h]
      exact hkept
    · rw [course_of_ok h]
      exact ⟨hkept.heap.trans (ih _ s').heap, fun hs => (ih _ s').log (hkept.log hs)⟩

theorem course_take (n : Nat) (env : Env) (ts : List Term) (s : Session) (i : Nat) :
    (course n env (ts.take i) s).steps = (course n env ts s).steps.take i ∧
      (course n env (ts.take i) s).session.Kept (course n env ts s).session := by
  induction ts generalizing env s i with
  | nil =>
    rw [take_nil]
    exact ⟨take_nil.symm, course_keeps n env [] s⟩
  | cons t ts ih =>
    cases i with
    | zero => exact ⟨rfl, course_keeps n env (t :: ts) s⟩
    | succ i =>
      rw [take_succ_cons]
      rcases h : outcome (eval n env t) s with ⟨x | value, s'⟩
      · rw [course_of_error h, course_of_error h]
        exact ⟨rfl, .refl _, fun h => h⟩
      · rw [course_of_ok h, course_of_ok h]
        obtain ⟨hsteps, hkept⟩ := ih (after env value) s' i
        exact ⟨congrArg ((value, after env value) :: ·) hsteps, hkept⟩

theorem course_of_take {ts' : List Term} (hx : (course n env ts s).failure = some x)
    (h : ts'.take ((course n env ts s).steps.length + 1) = ts.take ((course n env ts s).steps.length + 1)) :
    course n env ts' s = course n env ts s := by
  induction ts generalizing env s ts' with
  | nil => cases hx
  | cons t ts ih =>
    obtain ⟨t', ts', rfl⟩ : ∃ u us, ts' = u :: us := by
      cases ts' with
      | nil => simp at h
      | cons u us => exact ⟨u, us, rfl⟩
    rw [take_succ_cons, take_succ_cons] at h
    obtain ⟨rfl, h⟩ := List.cons.inj h
    rcases ho : outcome (eval n env t') s with ⟨y | value, s'⟩
    · rw [course_of_error ho, course_of_error ho]
    · rw [course_of_ok ho] at hx h
      rw [course_of_ok ho, course_of_ok ho, ih hx h]

end Chain

theorem Repl.course_eq (depth : Nat) (r : Repl) (ts : List Term) :
    r.course depth ts = Chain.course depth r.env ts r.session := by
  induction ts generalizing r with
  | nil => rfl
  | cons t ts ih =>
    rw [course]
    rcases h : r.settle depth t with ⟨x | value, r'⟩
    · rw [Chain.course_of_error (settle_error h).1]
    · obtain ⟨heval, henv⟩ := settle_ok h
      rw [Chain.course_of_ok heval, ← henv]
      exact congrArg (Course.cons value _) (ih r')

/-! ### Scopes -/

theorem eval_definition {n : Nat} (d : Definition)
    (h : outcome (eval n env d.term) s = (.ok value, s')) : ∃ i bs, value = .environment i bs := by
  cases n with
  | zero => cases h
  | succ n =>
    obtain ⟨_, _, -, h⟩ := bind_returns h
    obtain ⟨_, _, -, h⟩ := bind_returns h
    obtain ⟨u, _, -, h⟩ := bind_returns (m := eval n env d.source) h
    have hplaced : ∀ {w s}, outcome (Session.fresh >>= fun i => pure (Term.environment i (env.set d.name w))) s =
        (.ok value, s') → ∃ i bs, value = .environment i bs := by
      intro w s h
      cases h
      exact ⟨_, _, rfl⟩
    cases u with
    | closure e code =>
      obtain ⟨_, _, -, h⟩ := bind_returns h
      obtain ⟨_, _, -, h⟩ := bind_returns h
      obtain ⟨_, _, -, h⟩ := bind_returns h
      exact hplaced h
    | _ =>
      obtain ⟨_, _, -, h⟩ := bind_returns h
      exact hplaced h

section Scopes
variable {n : Nat} {env : Env} {s s' : Session} (d : Definition) (t : Term)

theorem outcome_scope (hlog : s.log = none) :
    outcome (eval (n + 1) env (.scope d.scope t d.term)) s = outcome (do
      match ← eval n env d.term with
      | .environment _ bs => eval n (env.merge bs) t
      | _ => throw .bindingNotAssignment) s := by
  rw [eval, outcome_evalBy _ n env _ hlog]
  rfl

end Scopes

/-! ### Agreement -/

def Course.single (env : Env) : Except EvalError Term × Session → Course
  | (.error x, s) => { failure := some x, session := s }
  | (.ok value, s) => { steps := [(value, Chain.after env value)], session := s }

theorem Course.result_single (env : Env) (o : Except EvalError Term × Session) :
    (single env o).result = some o.1 ∧ (single env o).session = o.2 := by
  obtain ⟨x | value, s⟩ := o <;> exact ⟨rfl, rfl⟩

theorem eventually_single_iff {o : Nat → Except EvalError Term × Session} (env : Env) : (∀ᶠ n in atTop, o n = (r, s')) ↔
      ∃ c, (∀ᶠ n in atTop, Course.single env (o n) = c) ∧ c.result = some r ∧ c.session = s' := by
  constructor
  · intro h
    refine ⟨.single env (r, s'), ?_, Course.result_single env (r, s')⟩
    filter_upwards [h] with n hn
    rw [hn]
  · rintro ⟨c, h, hr, hs⟩
    filter_upwards [h] with n hn
    obtain ⟨hresult, hsession⟩ := Course.result_single env (o n)
    rw [hn] at hresult hsession
    exact Prod.ext (Option.some.inj (hresult.symm.trans hr)) (hsession.symm.trans hs)

theorem eventually_succ {p : Nat → Prop} : (∀ᶠ n in atTop, p (n + 1)) ↔ ∀ᶠ n in atTop, p n := by
  conv_rhs => rw [← map_add_atTop_eq_nat 1]
  rfl

theorem exists_course_cons_iff {f g : Nat → Course}
    (hg : ∀ᶠ n in atTop, g n = (f n).cons value env) (hf : ∀ n, (f n).result ≠ none) :
    (∃ c, (∀ᶠ n in atTop, f n = c) ∧ c.result = some r ∧ c.session = s') ↔
      ∃ c, (∀ᶠ n in atTop, g n = c) ∧ c.result = some r ∧ c.session = s' := by
  constructor
  · rintro ⟨c, hc, hr, hs⟩
    refine ⟨c.cons value env, ?_, ?_, hs⟩
    · filter_upwards [hg, hc] with n hgn hcn
      rw [hgn, hcn]
    · rw [Course.result_cons (by rw [hr]; exact Option.some_ne_none r), hr]
  · rintro ⟨c, hc, hr, hs⟩
    -- one step less is left of the course that the chain has from some depth on
    have hcons : ∀ᶠ n in atTop, (f n).cons value env = c := by
      filter_upwards [hg, hc] with n hgn hcn
      rw [← hgn, hcn]
    obtain ⟨n, hn⟩ := hcons.exists
    refine ⟨f n, ?_, ?_, by rw [← hs, ← hn]; rfl⟩
    · filter_upwards [hcons] with k hk using Course.cons_injective (hk.trans hn.symm)
    · rw [← Course.result_cons (hf n) value env, hn, hr]

/-- Scopes come to what the chain comes to. -/
theorem eventually_nested_iff (env : Env) (ds : List Definition) (t : Term) (hlog : s.log = none)
    (r : Except EvalError Term) (s' : Session) : (∀ᶠ n in atTop, outcome (eval n env (nested ds t)) s = (r, s')) ↔
      ∃ c, (∀ᶠ n in atTop, Chain.course n env (listed ds t) s = c) ∧ c.result = some r ∧ c.session = s' := by
  induction ds generalizing env s with
  | nil =>
    have hsingle : ∀ n, Chain.course n env (listed [] t) s = .single env (outcome (eval n env t) s) := by
      intro n
      rcases h : outcome (eval n env t) s with ⟨x | value, s'⟩
      · exact Chain.course_of_error h
      · exact Chain.course_of_ok h
    simp only [hsingle]
    exact eventually_single_iff env
  | cons d ds ih =>
    -- a scope takes one level of depth more than its definition and what is inside of it
    rw [← eventually_succ]
    rcases eval_returns_or_fails env d.term s with ⟨value, s1, hreturns⟩ | hfails
    · have hlog1 : s1.log = none := by
        obtain ⟨n, hn⟩ := hreturns.exists
        have := (keeps_eval n env d.term s).log hlog
        rwa [hn] at this
      have hscope : ∀ᶠ n in atTop, outcome (eval (n + 1) env (nested (d :: ds) t)) s =
          outcome (eval n (Chain.after env value) (nested ds t)) s1 := by
        filter_upwards [hreturns] with n hn
        obtain ⟨i, bs, rfl⟩ := eval_definition d hn
        exact (outcome_scope d _ hlog).trans (bind_ok hn)
      have hcourse : ∀ᶠ n in atTop, Chain.course n env (listed (d :: ds) t) s =
          (Chain.course n (Chain.after env value) (listed ds t) s1).cons value (Chain.after env value) := by
        filter_upwards [hreturns] with n hn using Chain.course_of_ok hn
      rw [eventually_congr (hscope.mono fun n hn => by rw [hn]), ih (Chain.after env value) hlog1]
      exact exists_course_cons_iff hcourse fun n => Chain.result_course (by simp [listed])
    · -- the definition may fail in other sessions at other depths, but scope and chain stop with it at each of them
      have hscope : ∀ n, outcome (eval (n + 1) env (nested (d :: ds) t)) s = outcome (eval n env d.term) s := by
        intro n
        obtain ⟨x, s1, hn⟩ := hfails n
        rw [hn]
        exact (outcome_scope d _ hlog).trans (by rw [outcome_bind, hn])
      have hcourse : ∀ n, Chain.course n env (listed (d :: ds) t) s = .single env (outcome (eval n env d.term) s) := by
        intro n
        obtain ⟨x, s1, hn⟩ := hfails n
        rw [hn]
        exact Chain.course_of_error hn
      simp only [hscope, hcourse]
      exact eventually_single_iff env

/-- From a session on, definitions and a term after them come to the same in three ways. -/
structure Agree (env : Env) (ds : List Definition) (t : Term) (s : Session) : Prop where
  /-- The scopes come to a value or to a failure exactly if the chain does. -/
  scopes : ∀ r s', (∀ᶠ n in atTop, outcome (eval n env (nested ds t)) s = (r, s')) ↔
    ∃ c, (∀ᶠ n in atTop, Chain.course n env (listed ds t) s = c) ∧ c.result = some r ∧ c.session = s'
  /-- They fail at the definition at which the chain fails, so what comes after it makes no difference. -/
  failure : ∀ c x, (∀ᶠ n in atTop, Chain.course n env (listed ds t) s = c) → c.failure = some x →
    ∀ ds' t', (listed ds' t').take (c.steps.length + 1) = (listed ds t).take (c.steps.length + 1) →
      ∀ᶠ n in atTop, outcome (eval n env (nested ds' t')) s = (.error x, c.session)
  /-- The interactive session goes through the same course, at every depth. -/
  session : ∀ n (r : Repl), r.env = env → r.session = s → r.course n (listed ds t) = Chain.course n env (listed ds t) s
  /-- The environments of earlier steps stay what they were, and so do the objects that their names stand for. -/
  earlier : ∀ n i, (Chain.course n env ((listed ds t).take i) s).steps = (Chain.course n env (listed ds t) s).steps.take i ∧
    (Chain.course n env ((listed ds t).take i) s).session.Kept (Chain.course n env (listed ds t) s).session

/-- In a session that keeps no log, scopes, chains and interactive sessions agree. -/
theorem scopes_chain_session_agree (env : Env) (ds : List Definition) (t : Term) (heap : Heap) (seen : List Term) :
    Agree env ds t { heap, seen } where
  scopes := eventually_nested_iff env ds t rfl
  failure c x hc hx ds' t' htake := by
    refine (eventually_nested_iff env ds' t' rfl _ _).mpr ⟨c, ?_, by rw [Course.result, hx], rfl⟩
    filter_upwards [hc] with n hn
    subst hn
    exact Chain.course_of_take hx htake
  session n r henv hs := by rw [Repl.course_eq, henv, hs]
  earlier n i := Chain.course_take n env (listed ds t) _ i

end Scrap
