import Scrap.Proofs.Eval.Alongside
import Scrap.Proofs.Eval.Congruence

/-! # Steps of two runs

Whatever evaluation does with values and sessions, two runs with different closures do alike. -/

namespace Scrap.Eval

open Term Session List

variable {P : Parallel} {code : Term}

/-- The sessions of two runs; what is known of them are their closures and links. -/
def sessions (P : Parallel) : Pairing Session Session where
  Known := Term → Prop
  le Q Q' := ∀ u, Q u → Q' u
  refl _ _ h := h
  trans h1 h2 u h := h2 u (h1 u h)
  Meets := Alongside P

/-- Unless the first computation stops the comparison, both come to the same; `ok` holds of it. -/
def Mirrors {α : Type} (P : Parallel) (Q : Term → Prop) (ok : (Term → Prop) → α → Prop) (m m' : EvalM α) : Prop :=
  Pace (sessions P) (fun x => x = P.stop) Q (fun a a' v => a' = a ∧ ok v a) m m'

/-- Both computations come to the same value, whose closures and links are known. -/
abbrev MirrorsTerm (P : Parallel) (Q : Term → Prop) (m m' : EvalM Term) : Prop := Mirrors P Q (fun v t => t.Leaves v) m m'

/-- Nothing in what both computations come to is a closure or a link. -/
abbrev MirrorsPlain {α : Type} (P : Parallel) (Q : Term → Prop) (m m' : EvalM α) : Prop :=
  Mirrors P Q (fun _ _ => True) m m'

section Rules
variable {Q : Term → Prop} {α β : Type} {ok : (Term → Prop) → α → Prop} {m m' : EvalM α}

theorem Mirrors.later (hm : Mirrors P Q ok m m') {v : Term → Prop} (hv : ∀ u, Q u → v u) : Mirrors P v ok m m' :=
  Pace.later hm hv

theorem Mirrors.then (hm : Mirrors P Q ok m m') {f f' : α → EvalM β} {ok' : (Term → Prop) → β → Prop}
    (hf : ∀ v a, (∀ u, Q u → v u) → ok v a → Mirrors P v ok' (f a) (f' a)) : Mirrors P Q ok' (m >>= f) (m' >>= f') :=
  Pace.bind hm fun a a' v hv ⟨ha, hok⟩ => by
    subst ha
    exact hf v a' hv hok

theorem Mirrors.pure {a : α} (h : ∀ v, (∀ u, Q u → v u) → ok v a) : Mirrors P Q ok (Pure.pure a) (Pure.pure a) :=
  Pace.pure fun v hv => ⟨rfl, h v hv⟩

theorem mirrors_plain (a : α) : MirrorsPlain P Q (pure a) (pure a) := .pure fun _ _ => trivial

theorem Mirrors.throw (x : EvalError) : Mirrors P Q ok (throw x) (MonadExcept.throw x) := Pace.throw x

theorem Mirrors.mono {ok' : (Term → Prop) → α → Prop} (hm : Mirrors P Q ok m m')
    (h : ∀ v a, (∀ u, Q u → v u) → ok v a → ok' v a) : Mirrors P Q ok' m m' :=
  Pace.mono hm fun a _ v hv ⟨ha, hok⟩ => ⟨ha, h v a hv hok⟩

theorem Mirrors.heap {f f' : Heap → EvalM α}
    (hf : ∀ v s s', (∀ u, Q u → v u) → Alongside P v s s' → Mirrors P v ok (f s.heap) (f' s'.heap)) :
    Mirrors P Q ok (heapNow >>= f) (heapNow >>= f') :=
  fun v _ _ hv hm => hf v _ _ hv hm v _ _ (fun _ h => h) hm

theorem mirrors_fresh : MirrorsPlain P Q fresh fresh := fun v _ _ _ hm =>
  ⟨_, _, rfl, v, fun _ h => h, hm.skip (Nat.le_succ _) (congrArg (· + 1) hm.agrees.next), hm.agrees.next, trivial⟩

theorem mirrors_placed {f : Nat → Term} (hf : ∀ i, (f i).Leaves Q) :
    MirrorsTerm P Q (fresh >>= fun i => pure (f i)) (fresh >>= fun i => pure (f i)) :=
  mirrors_fresh.then fun _ i hv _ => .pure fun _ hu => (hf i).mono fun u h => hu u (hv u h)

theorem mirrors_settled {r r' : Except EvalError α} (h : r = .error P.stop ∨ r' = r) :
    MirrorsPlain P Q (settled r) (settled r') := by
  rcases h with rfl | rfl
  · exact Pace.throw_excused rfl
  · cases r' with
    | ok a => exact mirrors_plain a
    | error e => exact .throw e

end Rules

/-! ### Messages -/

section Messages
variable {Q : Term → Prop} {t : Term}

theorem outcome_printing (t : Term) (s : Session) :
    outcome (liftM (printing t.shown) : EvalM (Except PrintError String)) s =
      (.ok (outcome (t.shown s.heap) s.seen).1, { s with seen := (outcome (t.shown s.heap) s.seen).2 }) := rfl

theorem mirrors_printing (ht : t.Leaves P.old) :
    MirrorsPlain P Q (liftM (printing t.shown)) (liftM (printing t.shown)) := by
  intro v s s' _ hm
  obtain ⟨hout, hseen⟩ := Printer.shown_alike hm.agrees ht s.seen hm.remembered
  unfold Twin
  rw [outcome_printing, outcome_printing, hm.seen, hout]
  exact ⟨_, _, rfl, v, fun _ h => h, hm.remember hseen rfl hm.log, rfl, trivial⟩

theorem mirrors_textOf (ht : t.Leaves P.old) : MirrorsPlain P Q (textOf t) (textOf t) := by
  refine (mirrors_printing ht).then fun _ r _ _ => ?_
  cases r with
  | ok s => exact mirrors_plain s
  | error e => exact .throw _

theorem outcome_noteTerm (lead : String) (t : Term) (s : Session) :
    outcome (liftM (noteTerm lead t) : EvalM Unit) s =
      if s.log.isSome then
        match (outcome (t.shown s.heap) s.seen).1 with
        | .ok line => (.ok (), { s with
            seen := (outcome (t.shown s.heap) s.seen).2
            log := s.log.map (·.push (lead ++ line)) })
        | .error _ => (.ok (), { s with seen := (outcome (t.shown s.heap) s.seen).2 })
      else (.ok (), s) := by
  obtain ⟨heap, seen, log⟩ := s
  cases log with
  | none => rfl
  | some log =>
    show outcome (liftM (match (outcome (t.shown heap) seen).1 with
      | .ok line => note (lead ++ line)
      | .error _ => return ()) : EvalM Unit) { heap, seen := (outcome (t.shown heap) seen).2, log := some log } = _
    rcases outcome (t.shown heap) seen with ⟨r | r, seen'⟩ <;> rfl

theorem outcome_evalBy (rules : Rules) (n : Nat) (env : Env) (t : Term) {s : Session} (hlog : s.log = none) :
    outcome (evalBy rules (n + 1) env t) s = outcome (step rules (evalBy rules n) env t) s := by
  rw [evalBy, bind_ok (by rw [outcome_noteTerm, hlog]; rfl)]

theorem mirrors_noteTerm (lead : String) (ht : t.Leaves P.old) :
    MirrorsPlain P Q (noteTerm lead t : EvalM Unit) (noteTerm lead t) := by
  intro v s s' hv hm
  obtain ⟨hout, hseen⟩ := Printer.shown_alike hm.agrees ht s.seen hm.remembered
  unfold Twin
  rw [outcome_noteTerm, outcome_noteTerm, hm.seen, hm.log, hout]
  by_cases hlog : s.log.isSome
  · rw [if_pos hlog, if_pos hlog]
    rcases ho : outcome (t.shown s.heap) s.seen with ⟨r | r, seen⟩ <;> rw [ho] at hseen
    · exact ⟨_, _, rfl, v, fun _ h => h, hm.remember hseen rfl rfl, rfl, trivial⟩
    · exact ⟨_, _, rfl, v, fun _ h => h, hm.remember hseen rfl rfl, rfl, trivial⟩
  · rw [if_neg hlog, if_neg hlog]
    exact ⟨_, _, rfl, v, fun _ h => h, hm, rfl, trivial⟩

end Messages

/-! ### Rules -/

/-- Rules that two runs can follow: the first compares and calls like the second, or stops. -/
structure Watches (P : Parallel) (rules rules' : Rules) : Prop where
  keep : rules.keep = trimmed
  keep' : rules'.keep = P.keeping.keep
  equal : ∀ {Q s s' a b}, Alongside P Q s s' →
    rules.equal s.heap a b = .error P.stop ∨ rules'.equal s'.heap a b = rules.equal s.heap a b
  native : ∀ {Q f a}, a.Leaves Q → MirrorsTerm P Q (rules.native f a) (rules'.native f a)
  quote : ∀ t, rules.quote t = Pure.pure t ∧ rules'.quote t = Pure.pure t

section Functions
variable {Q : Term → Prop} {rules rules' : Rules}

theorem mirrors_captureBy (hcode : Code P code) (hvars : code.freeVars.isOk = true) {env env' : Env}
    (henv : Provides P.keeping Q code.Mentions env env') :
    MirrorsTerm P Q (captureBy trimmed env code) (captureBy P.keeping.keep env' code) := by
  obtain ⟨k, k', hk, hk', hprov⟩ := henv.kept hvars
  intro v s s' hv hm
  unfold captureBy
  rw [hk, hk']
  have hold : code.Leaves fun u => v u ∨ u = .closure s.heap.envs.size code :=
    hcode.old.mono fun u hu => .inl (hm.old u hu)
  refine ⟨_, _, rfl, _, fun _ => Or.inl, hm.capture hcode hvars (hprov.mono hv fun _ h => h), ?_,
    leaves_closure.mpr ⟨.inr rfl, hold⟩⟩
  show Term.closure s'.heap.envs.size code = .closure s.heap.envs.size code
  rw [hm.agrees.size]

theorem mirrors_named (hw : Watches P rules rules') {e : Nat} (hc : (Term.closure e code).Leaves Q) (x : String) :
    MirrorsTerm P Q
      (do onHeap fun h => ((), h.bind e x (.closure e code))
          captureBy rules.keep ((← heapNow).envOf e) code)
      (do onHeap fun h => ((), h.bind e x (.closure e code))
          captureBy rules'.keep ((← heapNow).envOf e) code) := by
  rw [hw.keep, hw.keep']
  have hbind : MirrorsPlain P Q (onHeap fun h => ((), h.bind e x (.closure e code)))
      (onHeap fun h => ((), h.bind e x (.closure e code))) := fun v s s' hv hm =>
    ⟨_, _, rfl, v, fun _ h => h, hm.bind (hv _ (hc _ .self rfl)) x, rfl, trivial⟩
  refine hbind.then fun v1 _ h1 _ => .heap fun v2 t t' h2 hm => ?_
  obtain ⟨-, hcode, hvars, henv⟩ := hm.closures e code (h2 _ (h1 _ (hc _ .self rfl)))
  exact mirrors_captureBy hcode hvars henv

end Functions

/-! ### Code -/

section Operands
variable {t u : Term}

theorem tame_operand (ht : t.tame = true) (hu : u ∈ t.operands) : u.tame = true := by
  cases t with
  | binop | apply | access | assert =>
    rw [tame, Bool.and_eq_true] at ht
    exact forall_pair (tame · = true) ht u hu
  | variant i tag v =>
    cases mem_singleton.mp hu
    exact ht
  | list i xs =>
    rw [tame, tameAll_iff] at ht
    exact ht u hu
  | record i fs =>
    rw [tame, tameFields_iff] at ht
    obtain ⟨p, hp, rfl⟩ := mem_map.mp hu
    exact ht p hp
  | _ => cases hu

theorem needs_operand {S : String → Prop} (hn : Needs t S) (hu : u ∈ t.operands) : Needs u S := by
  cases t with
  | binop | apply | access => exact forall_pair (Needs · S) (hn.both rfl) u hu
  | assert => exact needs_all hn.assert
  | variant i tag v =>
    cases mem_singleton.mp hu
    exact hn.variant
  | list i xs => exact hn.items hu
  | record i fs =>
    obtain ⟨p, hp, rfl⟩ := mem_map.mp hu
    exact hn.fields hp
  | _ => cases hu

end Operands

/-- What two runs do alike: code is evaluated in environments that have what it can ask for. -/
def Watches.congruence {P : Parallel} {rules rules' : Rules} (hw : Watches P rules rules') : Congruence rules rules' where
  toWorlds := LeafWorlds.worlds {
    Known := Term → Prop
    le Q Q' := ∀ u, Q u → Q' u
    refl _ _ h := h
    trans h1 h2 u h := h2 u (h1 u h)
    leaf Q := Q
    grows hv hu := hv _ hu }
  Rel := Mirrors P
  later hm hv := hm.later hv
  mono hm h := hm.mono h
  bind hm hf := hm.then hf
  pure h := .pure h
  throw := .throw
  fresh := mirrors_fresh
  Meets Q h h' := ∃ s s', Alongside P Q s s' ∧ s.heap = h ∧ s'.heap = h'
  old _ := P.old
  Fits Q env env' t := Code P t ∧ ∃ S, Needs t S ∧ Provides P.keeping Q S env env'
  resolve hm := by
    obtain ⟨s, s', hm, rfl, rfl⟩ := hm
    exact hm.resolve
  resolves hm := by
    obtain ⟨s, s', hm, rfl, rfl⟩ := hm
    exact hm.resolves
  text ht := ht.1.old
  still ht hv := by
    obtain ⟨hc, S, hn, henv⟩ := ht
    exact ⟨hc, S, hn, henv.mono hv fun _ h => h⟩
  linked _ ht := by rwa [ht.1.resolve]
  var ht := by
    obtain ⟨-, S, hn, henv⟩ := ht
    exact ⟨henv.same _ hn.var, fun v hv => henv.leaves _ (Dict.mem_of_get? hv)⟩
  closure hm ht := by
    obtain ⟨s, s', hm, rfl, rfl⟩ := hm
    exact ht.1.old.mono hm.old
  record _ h := leaves_record.mpr (forall_of_forall₂ (h.imp fun _ _ => And.right))
  operand ht hu := by
    obtain ⟨hc, S, hn, henv⟩ := ht
    exact ⟨hc.part (mem_parts_of_operands hu) (tame_operand hc.tame hu), S, needs_operand hn hu, henv⟩
  scope {w env env' i j x b t} ht := by
    obtain ⟨hc, S, hn, henv⟩ := ht
    have htame := hc.tame
    rw [tame, Bool.and_eq_true] at htame
    refine ⟨⟨⟨htame.2, (hc.leaves.part (.tail _ (.head _))).part (.head _)⟩, S, hn.scope.1, henv⟩, fun v u hv hu => ?_⟩
    exact ⟨hc.part (.head _) htame.1, _, hn.scope.2, (henv.mono hv fun _ h => h).define x hu⟩
  assign ht := by
    have htame := ht.1.tame
    rw [tame] at htame
    cases htame
  body {w h h' e i p b x a} hm hc hp ha := by
    obtain ⟨s, s', hm, rfl, rfl⟩ := hm
    obtain ⟨-, hcode, hvars, henv⟩ := hm.closures e _ (hc _ .self rfl)
    have htame := hcode.tame
    rw [tame, Bool.and_eq_true] at htame
    exact ⟨hcode.part (.tail _ (.head _)) htame.2, _, (needs_mentions hvars).body hp, henv.set x ha⟩
  case {w h h' e i cs p b found} hm hc hp hf := by
    obtain ⟨s, s', hm, rfl, rfl⟩ := hm
    obtain ⟨-, hcode, hvars, henv⟩ := hm.closures e _ (hc _ .self rfl)
    have htame := hcode.tame
    rw [tame, Bool.and_eq_true] at htame
    obtain ⟨hspread, htame⟩ := tameCases_iff.mp htame.2 (p, b) hp
    have hf : Takes (Leaves w) p.Mentions found := hf.mono fun y hy => ⟨hspread, hy⟩
    exact ⟨hcode.part (mem_parts_cases hp).2 htame, _, (needs_mentions hvars).case hp, henv.merge hf⟩
  heap hf := .heap fun v s s' hv hm => hf v _ _ hv ⟨s, s', hm, rfl, rfl⟩
  textOf := mirrors_textOf
  note := mirrors_noteTerm ""
  equal a b hm := by
    obtain ⟨s, s', hm, rfl, rfl⟩ := hm
    exact mirrors_settled (hw.equal hm)
  native _ _ ha := hw.native ha
  quote hm ht := by
    obtain ⟨s, s', hm, rfl, rfl⟩ := hm
    rw [(hw.quote _).1, (hw.quote _).2]
    exact .pure fun v hv => (ht.1.old.part (.tail _ (.head _))).mono fun u hu => hv u (hm.old u hu)
  capture {w env env' t} ht hcode := by
    obtain ⟨hc, S, hn, henv⟩ := ht
    have hvars : t.freeVars.isOk = true := by
      have htame := hc.tame
      cases t with
      | function | matchFunction =>
        rw [tame, Bool.and_eq_true] at htame
        exact htame.1
      | _ => cases hcode
    rw [hw.keep, hw.keep']
    exact mirrors_captureBy hc hvars (henv.mono (fun _ h => h) fun _ h => hn.mentions h)
  named x hc := mirrors_named hw hc x

end Scrap.Eval
