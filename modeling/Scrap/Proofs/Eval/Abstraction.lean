import Scrap.Proofs.Eval.Keeping
import Scrap.Proofs.Eval.Trimming

/-! # Calling a function where it is written

Code without free variables can be evaluated but not put into a function. In other code nothing changes: the
environment of the function has what the code asks for. A composition calls its operands as if they stood outside. -/

namespace Scrap

open Term Dict

section Reaches
variable {h : Heap} {d : Env} {r u : Term}

theorem Heap.Reaches.of_push (hr : ∀ e c, h.Reaches r (.closure e c) → e < h.envs.size)
    (hu : Heap.Reaches { h with envs := h.envs.push d } r u) : h.Reaches r u := by
  induction hu with
  | root => exact .root
  | part _ hp ih => exact ih.part hp
  | link _ ih => exact ih.link
  | value _ hp ih =>
    rw [Heap.envOf_push, if_neg (Nat.ne_of_lt (hr _ _ ih))] at hp
    exact ih.value hp

end Reaches

def Session.push (s : Session) (d : Env) : Session := { s with heap := { s.heap with envs := s.heap.envs.push d } }

namespace Eval

section Runs
variable {s : Session} {env : Env} {t : Term} {names : List String}

theorem Ready.push (hr : Ready s env t) (d : Env) : Ready (s.push d) env t := by
  have hlt := fun r hroot e c hc => (hr.closures r hroot e c hc).1
  exact
    { hr with
      links := fun r hroot i hi => hr.links r hroot i (.of_push (hlt r hroot) hi)
      closures := fun r hroot e c hc => by
        have hc : s.heap.Reaches r (.closure e c) := .of_push (hlt r hroot) hc
        obtain ⟨he, hrest⟩ := hr.closures r hroot e c hc
        have henv : (s.push d).heap.envOf e = s.heap.envOf e := by
          rw [Session.push, Heap.envOf_push, if_neg (Nat.ne_of_lt he)]
        rw [henv]
        exact ⟨Nat.lt_of_lt_of_le he (Array.size_push .. ▸ Nat.le_succ _), hrest⟩ }

/-- Both runs trim, from environments that agree on what is mentioned. -/
def Keeping.mentioned : Keeping where
  keep := Eval.trimmed
  rel _ _ := True
  refl _ := trivial
  set _ _ _ := trivial
  merge _ _ := trivial
  define _ _ _ _ _ := trivial
  kept hv _ hp := ⟨_, by rw [Eval.trimmed, hv], trivial, hp.restrict _, fun _ hp => (mem_restrict.mp hp).1,
    fun x hx => by rw [get?_restrict, if_pos hx]⟩

/-- Two runs come to the same value, or fail alike. -/
def EndAlike (o o' : Except EvalError Term × Session) : Prop :=
  (∃ v s₁ s₂, o = (.ok v, s₁) ∧ o' = (.ok v, s₂) ∧ s₂.heap.knots = s₁.heap.knots) ∨
    ∃ err, o.1 = .error err ∧ o'.1 = .error err

theorem endAlike_of_twins {m m₁ m₂ : EvalM Term} {P : Parallel} (hq : (outcome m s).1 ≠ .error P.stop)
    (h₁ : P.Twins s m m₁) (h₂ : P.Twins s m m₂) : EndAlike (outcome m₁ s) (outcome m₂ s) := by
  rcases ho : outcome m s with ⟨err | v, w⟩
  · have hstop : err ≠ P.stop := fun he => hq (by rw [ho, he])
    exact .inr ⟨err, (h₁.fails ho).resolve_left hstop, (h₂.fails ho).resolve_left hstop⟩
  · obtain ⟨v₁, s₁, ho₁, u₁, hm₁, rfl, -⟩ := h₁.returns ho
    obtain ⟨v₂, s₂, ho₂, u₂, hm₂, rfl, -⟩ := h₂.returns ho
    exact .inl ⟨v₂, s₁, s₂, ho₁, ho₂, hm₂.agrees.knots.trans hm₁.agrees.knots.symm⟩

theorem outcome_apply {rules : Rules} (hlog : s.log = none) {f : Term} (hf : f.paramName? ≠ some "$$quote") (i n : Nat)
    (a : Term) : outcome (evalBy rules (n + 1) env (.apply i f a)) s = outcome (evalBy rules n env f >>= fun callee =>
      evalBy rules n env a >>= fun arg => applied rules (evalBy rules n) callee arg) s := by
  rw [outcome_evalBy _ _ _ _ hlog, step, bind_ok (outcome_heapNow s)]
  dsimp only [Heap.resolve]
  split
  · exact absurd rfl hf
  · rfl

theorem outcome_applied (rules : Rules) (run : Run) (e i j : Nat) (x : String) (b v : Term) :
    outcome (applied rules run (.closure e (.function i (.var j x) b)) v) s =
      outcome (run ((s.heap.envOf e).set x v) b) s := rfl

/-- The closure `e` of the code was made where the names of the code had the values that they have in `env`. -/
def Made (s : Session) (env : Env) (e : Nat) (code : Term) : Prop :=
  ∃ names, code.freeVars = .ok names ∧ s.heap.envOf e = env.restrict names

/-- Evaluation of a function makes a closure. -/
theorem made_capture (s : Session) (env : Env) {code : Term} (hv : code.freeVars = .ok names) :
    outcome (captureBy trimmed env code) s = (.ok (.closure s.heap.envs.size code), s.push (env.restrict names)) ∧
      Made (s.push (env.restrict names)) env s.heap.envs.size code := by
  refine ⟨?_, names, hv, by rw [Session.push, Heap.envOf_push, if_pos rfl]⟩
  rw [captureBy, trimmed, hv]
  rfl

/-- The call of a function of the parameter `x` with nothing as its argument. -/
def abstraction (x : String) (e : Term) : Term := .apply 0 (.function 0 (.var 0 x) e) (.hole 0)

def kept (x : String) (names : List String) (env : Env) : Env := env.restrict (without x names)

theorem outcome_abstraction (hlog : s.log = none) (x : String) (n : Nat) :
    outcome (eval (n + 2) env (abstraction x t)) s = outcome (captureBy trimmed env (.function 0 (.var 0 x) t) >>=
      fun callee => evalBy .standard (n + 1) env (.hole 0) >>= applied .standard (evalBy .standard (n + 1)) callee) s := by
  rw [eval, abstraction, outcome_apply hlog (by simp [paramName?]), outcome_bind, outcome_bind,
    outcome_evalBy _ _ _ _ hlog]
  rfl

theorem outcome_abstraction_error (hlog : s.log = none) {err : FreeVarsError} (hv : t.freeVars = .error err)
    (x : String) (n : Nat) : outcome (eval (n + 2) env (abstraction x t)) s = (.error (.freeVars err), s) := by
  have hf : (Term.function 0 (.var 0 x) t).freeVars = .error err := by
    rw [freeVars, hv]
    rfl
  rw [outcome_abstraction hlog, captureBy, trimmed, hf]
  rfl

theorem outcome_abstraction_ok (hlog : s.log = none) (hv : t.freeVars = .ok names)
    (x : String) (n : Nat) : outcome (eval (n + 2) env (abstraction x t)) s =
      outcome (eval (n + 1) ((kept x names env).set x (.hole 0)) t) (s.push (kept x names env)) := by
  have hf : (Term.function 0 (.var 0 x) t).freeVars = .ok (without x names) := by
    rw [freeVars, hv]
    rfl
  obtain ⟨hcapture, names', hf', henv⟩ := made_capture s env hf
  cases hf.symm.trans hf'
  have hhole : outcome (evalBy .standard (n + 1) env (.hole 0)) (s.push (env.restrict (without x names))) =
      (.ok (.hole 0), s.push (env.restrict (without x names))) := by
    rw [outcome_evalBy _ _ _ _ (show (s.push _).log = none from hlog)]
    rfl
  rw [outcome_abstraction hlog, bind_ok hcapture, bind_ok hhole, outcome_applied, henv]
  rfl

/-- What a function keeps of an environment has what is asked for, if that is neither its parameter nor another name. -/
theorem provides_kept (hr : Ready s env t) (stop : EvalError) {S : String → Prop} {v : Term}
    (hv : v.Leaves (hr.parallel .mentioned stop).old) {x : String} (hS : ∀ z, S z → z ≠ x ∧ z ∈ names) :
    Provides .mentioned (hr.parallel .mentioned stop).old S env ((env.restrict names).set x v) where
  rel := trivial
  proper := ⟨hr.proper, (hr.proper.restrict _).set _ _⟩
  leaves := hr.leaves_env _ _
  leaves' := values_set (fun p hp => hr.leaves_env _ _ p (mem_restrict.mp hp).1) hv
  same z hz := by rw [get?_set, if_neg (hS z hz).1, get?_restrict, if_pos (hS z hz).2]

/-- Code in a function of a parameter that it does not mention comes to what it comes to by itself, once the function
has been made, if it has free variables; and otherwise there is no such function. A definition outside of a scope comes
to the whole environment, which the function trims: `Ready` excludes it. -/
theorem abstraction_alike (hlog : s.log = none) (x : String) :
    (∀ err, t.freeVars = .error err → ∀ n,
      outcome (eval (n + 2) env (abstraction x t)) s = (.error (.freeVars err), s)) ∧
    ∀ names, t.freeVars = .ok names → x ∉ names → Ready s env t →
      ∀ n, Quiet (n + 1) env t (s.push (kept x names env)) →
        (∃ v s₁ s₂, outcome (eval (n + 1) env t) (s.push (kept x names env)) = (.ok v, s₁) ∧
          outcome (eval (n + 2) env (abstraction x t)) s = (.ok v, s₂) ∧ s₂.heap.knots = s₁.heap.knots) ∨
        ∃ err, (outcome (eval (n + 1) env t) (s.push (kept x names env))).1 = .error err ∧
          (outcome (eval (n + 2) env (abstraction x t)) s).1 = .error err := by
  refine ⟨fun err hv n => outcome_abstraction_error hlog hv x n, fun names hv hx hr n hq => ?_⟩
  obtain ⟨stop, hq⟩ := hq
  have hr := hr.push (kept x names env)
  have hdirect := hr.twin .mentioned stop (n + 1)
  have hkept : ∀ z, t.Mentions z → z ≠ x ∧ z ∈ without x names := by
    rintro z ⟨ns, hns, hz⟩
    cases hv.symm.trans hns
    have hzx : z ≠ x := fun h => hx (h ▸ hz)
    exact ⟨hzx, (mem_without hz).resolve_left hzx⟩
  have hinside := hr.twin_within (needs_mentions (isOk_iff.mpr ⟨names, hv⟩))
    (provides_kept hr stop (show (Term.hole 0).Leaves _ from leaves_atom rfl rfl) hkept) (n + 1)
  rw [outcome_abstraction_ok hlog hv]
  exact endAlike_of_twins hq hdirect hinside

end Runs

theorem renamedSum_abstracted :
    (outcome (eval 13 twoNumbers (abstraction "z" renamedSum)) {}).1.toOption.bind secondNumber? = some 10 ∧
      EndAlike (outcome (eval 12 twoNumbers renamedSum) (({} : Session).push [("a", .int 0 7)]))
        (outcome (eval 13 twoNumbers (abstraction "z" renamedSum)) {}) := by
  have hvars : renamedSum.freeVars = .ok ["a", "g"] := by decide +kernel
  have hquiet : Quiet 12 twoNumbers renamedSum (({} : Session).push [("a", .int 0 7)]) :=
    quiet_of_isOk (by decide +kernel)
  exact ⟨by decide +kernel, (abstraction_alike rfl "z").2 _ hvars (by decide) renamedSum_ready 11 hquiet⟩

/-- The term `1 ? #true ()`. -/
def assertedOne : Term := .assert 0 (.int 0 1) (.variant 0 "true" (.hole 0))

theorem assertedOne_not_abstracted :
    (outcome (eval 3 [] assertedOne) {}).1.toOption.bind int? = some 1 ∧
      ∀ n, (outcome (eval (n + 2) [] (abstraction "x" assertedOne)) {}).1.isOk = false := by
  refine ⟨by decide +kernel, fun n => ?_⟩
  rw [outcome_abstraction_error rfl rfl]
  rfl

/-! ### Compositions -/

/-- `r (l y)`, where the applications and the name have these numbers. -/
def nested (i j k : Nat) (l r : Term) (y : String) : Term := .apply i r (.apply j l (.var k y))

/-- The value of `l` is called with `v`, and the value of `r` with what that comes to. -/
def chained (rules : Rules) (n : Nat) (env : Env) (l r v : Term) : EvalM Term := do
  let g ← evalBy rules (n + 2) env r
  let f ← evalBy rules (n + 1) env l
  let w ← applied rules (evalBy rules (n + 1)) f v
  applied rules (evalBy rules (n + 2)) g w

theorem keeps_watched (stop : EvalError) (n : Nat) (env : Env) (t : Term) : Keeps (evalBy (.watched stop) n env t) := by
  refine keeps_evalBy (fun f a => keeps_heapNow.bind fun h => ?_) (fun _ => .pure _) n env t
  split
  · exact .throw _
  · exact keeps_native f a

section Nested
variable {rules : Rules} {s : Session} {env : Env} {l r v : Term} {x y : String} {i j k : Nat}

theorem outcome_bind_congr {α β : Type} {m : EvalM α} {f f' : α → EvalM β}
    (h : ∀ a t, outcome m s = (.ok a, t) → outcome (f a) t = outcome (f' a) t) :
    outcome (m >>= f) s = outcome (m >>= f') s := by
  rw [outcome_bind, outcome_bind]
  rcases ho : outcome m s with ⟨e | a, t⟩
  · rfl
  · exact h a t ho

theorem outcome_nested (hkeeps : ∀ n env t, Keeps (evalBy rules n env t)) (hlog : s.log = none)
    (hl : l.paramName? ≠ some "$$quote") (hr : r.paramName? ≠ some "$$quote") (hy : env.get? y = some v) (n : Nat) :
    outcome (evalBy rules (n + 3) env (nested i j k l r y)) s = outcome (chained rules n env l r v) s := by
  have hafter : ∀ {n t a s s'}, s.log = none → outcome (evalBy rules n env t) s = (.ok a, s') → s'.log = none := by
    intro n t a s s' hs ho
    have := (hkeeps n env t s).log hs
    rwa [ho] at this
  rw [nested, outcome_apply hlog hr]
  refine outcome_bind_congr fun g s₁ ho => ?_
  have hlog₁ := hafter hlog ho
  rw [outcome_bind, outcome_apply hlog₁ hl, ← outcome_bind, bind_assoc]
  refine outcome_bind_congr fun f s₂ ho => ?_
  have harg : outcome (evalBy rules (n + 1) env (.var k y)) s₂ = (.ok v, s₂) := by
    rw [outcome_evalBy _ _ _ _ (hafter hlog₁ ho), step, bind_ok (outcome_heapNow s₂)]
    dsimp only [Heap.resolve]
    rw [hy]
    rfl
  rw [bind_assoc, bind_ok harg]

theorem Congruence.chained {rules' : Rules} (C : Congruence rules rules') {known : C.Known} {env' : Env}
    (hl : C.Fits known env env' l) (hr : C.Fits known env env' r) (hv : C.fine known v) (n : Nat) :
    C.Value known (Eval.chained rules n env l r v) (Eval.chained rules' n env' l r v) := by
  refine C.bind ((C.runs (n + 2)).value hr) fun _ g h1 hg => ?_
  refine C.bind (C.later ((C.runs (n + 1)).value hl) h1) fun _ f h2 hf => ?_
  refine C.bind (C.applied (C.runs (n + 1)) hf (C.grows (C.trans h1 h2) hv)) fun _ w h3 hw => ?_
  exact C.applied (C.runs (n + 2)) (C.grows (C.trans h2 h3) hg) hw

/-- A watched run, and a run in an environment that has what the operands ask for. -/
theorem twin_chained (hr : Ready s env (nested i j k l r y)) (stop : EvalError) {env' : Env}
    (hok : l.freeVars.isOk = true ∧ r.freeVars.isOk = true)
    (hprov : Provides .mentioned (hr.parallel .mentioned stop).old (fun z => l.Mentions z ∨ r.Mentions z) env env')
    (hy : env.get? y = some v) (n : Nat) :
    (hr.parallel .mentioned stop).Twins s (chained (.watched stop) n env l r v) (chained .standard n env' l r v) := by
  have hcode := hr.code .mentioned stop
  have htame := hr.tame
  simp only [nested, tame, Bool.and_eq_true] at htame
  have hinner := hcode.part (.tail _ (.head _)) (by simp [tame, htame])
  exact hr.twin_of_mirrors ((watches (hr.parallel .mentioned stop)).congruence.chained
    ⟨hinner.part (.head _) htame.2.1, _, needs_mentions hok.1, hprov.mono (fun _ h => h) fun _ => .inl⟩
    ⟨hcode.part (.head _) htame.1, _, needs_mentions hok.2, hprov.mono (fun _ h => h) fun _ => .inr⟩
    (hr.leaves_env .mentioned stop _ (mem_of_get? hy)) n)

/-- The function of a composition keeps what its operands mention. -/
theorem kept_of_operands {a b : Nat} {names : List String}
    (hv : (Term.function a (.var b x) (nested i j k l r x)).freeVars = .ok names) (hx : ¬ l.Mentions x ∧ ¬ r.Mentions x) :
    ∀ z, l.Mentions z ∨ r.Mentions z → z ≠ x ∧ z ∈ names := by
  intro z hz
  have hbody := (needs_mentions (isOk_iff.mpr ⟨names, hv⟩)).body rfl
  obtain ⟨hsecond, harg⟩ := hbody.both rfl
  obtain ⟨hfirst, -⟩ := harg.both rfl
  have hzx : z ≠ x := by
    rintro rfl
    exact hz.elim hx.1 hx.2
  obtain ⟨ns, hns, hmem⟩ := (hz.elim hfirst.mentions hsecond.mentions).resolve_left hzx
  cases hv.symm.trans hns
  exact ⟨hzx, hmem⟩

/-- A composition whose parameter is in neither operand, called with the value of `y`, comes to what `r (l y)` comes
to where the composition was made. -/
theorem composition_alike (hlog : s.log = none) (hr : Ready s env (nested i j k l r y))
    (hquote : l.paramName? ≠ some "$$quote" ∧ r.paramName? ≠ some "$$quote") (hx : ¬ l.Mentions x ∧ ¬ r.Mentions x)
    {e a b : Nat} (hmade : Made s env e (.function a (.var b x) (nested i j k l r x))) (hy : env.get? y = some v)
    {n : Nat} (hq : Quiet (n + 3) env (nested i j k l r y) s) :
    EndAlike (outcome (eval (n + 3) env (nested i j k l r y)) s) (outcome (applied .standard (eval (n + 3))
      (.closure e (.function a (.var b x) (nested i j k l r x))) v) s) := by
  obtain ⟨names, hv, hmade⟩ := hmade
  obtain ⟨stop, hq⟩ := hq
  have hbody := freeVars_parts (freeVars_parts (isOk_iff.mpr ⟨names, hv⟩) _ (.tail _ (.head _)))
  have hok : l.freeVars.isOk = true ∧ r.freeVars.isOk = true :=
    ⟨freeVars_parts (hbody _ (.tail _ (.head _))) _ (.head _), hbody _ (.head _)⟩
  have hdirect := twin_chained hr stop hok
    ⟨trivial, ⟨hr.proper, hr.proper⟩, hr.leaves_env _ _, hr.leaves_env _ _, fun _ _ => rfl⟩ hy n
  have hinside := twin_chained hr stop hok
    (provides_kept hr stop (hr.leaves_env _ _ _ (mem_of_get? hy)) (kept_of_operands hv hx)) hy n
  have hset : ((env.restrict names).set x v).get? x = some v := by rw [get?_set, if_pos rfl]
  rw [outcome_nested (keeps_watched stop) hlog hquote.1 hquote.2 hy] at hq
  have hkeeps : ∀ n env t, Keeps (evalBy .standard n env t) := keeps_eval
  rw [outcome_applied, hmade, eval, eval, outcome_nested hkeeps hlog hquote.1 hquote.2 hy, outcome_nested hkeeps hlog hquote.1 hquote.2 hset]
  exact endAlike_of_twins hq hdirect hinside

end Nested

end Eval

end Scrap
