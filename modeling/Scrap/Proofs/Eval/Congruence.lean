import Scrap.Proofs.Runs
import Scrap.Proofs.Term.Matching

/-! # Evaluation part by part

A step of the evaluator runs parts of a term, looks at the heap, takes numbers, makes closures and names them. A
relation between the computations of two runs that sequencing respects, and in which these actions are related, relates
whole runs. What is known of the closures and links in values can grow as the runs go on. -/

namespace Scrap

open List

variable {t : Term}

namespace Term

/-- The parts that are evaluated in the environment of the term. -/
def operands : Term → List Term
  | .variant _ _ v => [v]
  | .binop _ _ l r | .assert _ l r | .apply _ l r | .access _ l r => [l, r]
  | .list _ xs => xs
  | .record _ fs => fs.map Prod.snd
  | _ => []

theorem mem_parts_of_operands {u : Term} (hu : u ∈ t.operands) : u ∈ t.parts := by
  cases t <;> first | exact hu | cases hu

variable {Q : Term → Prop}

theorem leaves_atom (hl : t.isLeaf = false) (hp : t.parts = []) : t.Leaves Q :=
  leaves_of_parts hl fun _ hu => by
    rw [hp] at hu
    cases hu

theorem Leaves.any (t : Term) : t.Leaves fun _ => True := fun _ _ _ => trivial

/-- Constants of the language and built-in functions. -/
def isPlain : Term → Bool
  | .int _ _ | .truth _ _ | .float _ _ | .complex _ _ | .string _ _ | .bytes _ _ | .hole _ | .native _ _ => true
  | _ => false

end Term

namespace Eval

open Term Session

/-! ### Relations that evaluation respects -/

/-- What can be known of the runs, and what is a value then. -/
structure Worlds where
  Known : Type
  le : Known → Known → Prop
  refl : ∀ w, le w w
  trans : ∀ {u v w}, le u v → le v w → le u w
  fine : Known → Term → Prop
  grows : ∀ {w v t}, le w v → fine w t → fine v t
  compound : ∀ w, Compound (fine w)
  plain : ∀ {w t}, t.isPlain = true → fine w t

/-- What can be known of the closures and links in values. -/
structure LeafWorlds where
  Known : Type
  le : Known → Known → Prop
  refl : ∀ w, le w w
  trans : ∀ {u v w}, le u v → le v w → le u w
  leaf : Known → Term → Prop
  grows : ∀ {w v u}, le w v → leaf w u → leaf v u

abbrev LeafWorlds.worlds (L : LeafWorlds) : Worlds where
  Known := L.Known
  le := L.le
  refl := L.refl
  trans := L.trans
  fine w := Leaves (L.leaf w)
  grows hv ht := ht.mono fun _ => L.grows hv
  compound _ := compound_leaves
  plain {_ t} ht := by cases t <;> first | exact leaves_atom rfl rfl | cases ht

/-- A relation between computations that come to the same results; what is asked of these comes with it. -/
structure Related (W : Worlds) where
  Rel : {α : Type} → W.Known → (W.Known → α → Prop) → EvalM α → EvalM α → Prop
  later : ∀ {w v} {α : Type} {ok : W.Known → α → Prop} {m m'}, Rel w ok m m' → W.le w v → Rel v ok m m'
  mono : ∀ {w} {α : Type} {ok ok' : W.Known → α → Prop} {m m'}, Rel w ok m m' →
    (∀ v a, W.le w v → ok v a → ok' v a) → Rel w ok' m m'
  bind : ∀ {w} {α β : Type} {ok : W.Known → α → Prop} {ok' : W.Known → β → Prop} {m m' : EvalM α}
    {f f' : α → EvalM β}, Rel w ok m m' → (∀ v a, W.le w v → ok v a → Rel v ok' (f a) (f' a)) →
    Rel w ok' (m >>= f) (m' >>= f')
  pure : ∀ {w} {α : Type} {ok : W.Known → α → Prop} {a : α}, (∀ v, W.le w v → ok v a) →
    Rel w ok (Pure.pure a) (Pure.pure a)
  throw : ∀ {w} {α : Type} {ok : W.Known → α → Prop} (e : EvalError),
    Rel w ok (MonadExcept.throw e) (MonadExcept.throw e)
  fresh : ∀ {w}, Rel w (fun _ _ => True) fresh fresh

/-- What relates the runs by two sets of rules. -/
structure Congruence (rules rules' : Rules) extends Worlds, Related toWorlds where
  /-- The closures and links in code. -/
  old : Known → Term → Prop
  Meets : Known → Heap → Heap → Prop
  /-- The term can be evaluated in the environments of the runs. -/
  Fits : Known → Env → Env → Term → Prop
  resolve : ∀ {w h h'}, Meets w h h' → ∀ t, h'.resolve t = h.resolve t
  resolves : ∀ {w h h'}, Meets w h h' → ∀ t, fine w t → fine w (h.resolve t)
  text : ∀ {w env env' t}, Fits w env env' t → t.Leaves (old w)
  still : ∀ {w v env env' t}, Fits w env env' t → le w v → Fits v env env' t
  linked : ∀ {w h h' env env' t}, Meets w h h' → Fits w env env' t → Fits w env env' (h.resolve t)
  var : ∀ {w env env' i x}, Fits w env env' (.var i x) →
    env'.get? x = env.get? x ∧ ∀ v, env.get? x = some v → fine w v
  closure : ∀ {w h h' env env' e c}, Meets w h h' → Fits w env env' (.closure e c) → fine w (.closure e c)
  operand : ∀ {w env env' t u}, Fits w env env' t → u ∈ t.operands → Fits w env env' u
  record : ∀ {w v env env' i j fs gs}, Fits w env env' (.record i fs) →
    Forall₂ (fun f g => g.1 = f.1 ∧ fine v g.2) fs gs → fine v (.record j gs)
  scope : ∀ {w env env' i j x b t}, Fits w env env' (.scope i b (.assign j x t)) → Fits w env env' t ∧
    ∀ v u, le w v → fine v u → Fits v (env.merge (env.set x u)) (env'.merge (env'.set x u)) b
  assign : ∀ {w env env' i x t}, Fits w env env' (.assign i x t) → env' = env ∧ Fits w env env' t ∧
    ∀ v j u, le w v → fine v u → fine v (.environment j (env.set x u))
  body : ∀ {w h h' e i p b x a}, Meets w h h' → fine w (.closure e (.function i p b)) →
    p.paramName? = some x → fine w a → Fits w ((h.envOf e).set x a) ((h'.envOf e).set x a) b
  case : ∀ {w h h' e i cs p b found}, Meets w h h' → fine w (.closure e (.matchFunction i cs)) →
    (p, b) ∈ cs → Takes (fine w) (Sure p.spreadsLast p.freeVars) found →
    Fits w ((h.envOf e).merge found) ((h'.envOf e).merge found) b
  heap : ∀ {w} {α : Type} {ok : Known → α → Prop} {f f' : Heap → EvalM α},
    (∀ v h h', le w v → Meets v h h' → Rel v ok (f h) (f' h')) → Rel w ok (heapNow >>= f) (heapNow >>= f')
  textOf : ∀ {w v t}, t.Leaves (old v) → Rel w (fun _ _ => True) (textOf t) (textOf t)
  note : ∀ {w v t}, t.Leaves (old v) → Rel w (fun _ _ => True) (noteTerm "" t) (noteTerm "" t)
  equal : ∀ {w h h'} a b, Meets w h h' → Rel w (fun _ _ => True) (settled (rules.equal h a b)) (settled (rules'.equal h' a b))
  native : ∀ {w} f {a}, fine w a → Rel w fine (rules.native f a) (rules'.native f a)
  quote : ∀ {w h h' env env' i f a}, Meets w h h' → Fits w env env' (.apply i f a) →
    Rel w fine (rules.quote a) (rules'.quote a)
  capture : ∀ {w env env' t}, Fits w env env' t → Decoder.isCode t = true →
    Rel w fine (captureBy rules.keep env t) (captureBy rules'.keep env' t)
  named : ∀ {w e c} x, fine w (.closure e c) → Rel w fine
    (do onHeap fun h => ((), h.bind e x (.closure e c))
        captureBy rules.keep ((← heapNow).envOf e) c)
    (do onHeap fun h => ((), h.bind e x (.closure e c))
        captureBy rules'.keep ((← heapNow).envOf e) c)

namespace Congruence
variable {rules rules' : Rules} (C : Congruence rules rules') {w v : C.Known} {α β : Type} {ok : C.Known → α → Prop}
variable {names : String → Prop}

/-- Both computations come to the same value. -/
abbrev Value (w : C.Known) (m m' : EvalM Term) : Prop := C.Rel w C.fine m m'

/-- Nothing is asked of what both computations come to. -/
abbrev Plain {α : Type} (w : C.Known) (m m' : EvalM α) : Prop := C.Rel w (fun _ _ => True) m m'

/-- Both computations come to their environment with one name more, which stands for the same value. -/
def Defines (w : C.Known) (env env' : Env) (x : String) (m m' : EvalM Term) : Prop :=
  ∀ {α : Type} {ok : C.Known → α → Prop} {k k' : Term → EvalM α},
    (∀ v j u, C.le w v → C.fine v u →
      C.Rel v ok (k (.environment j (env.set x u))) (k' (.environment j (env'.set x u)))) →
    C.Rel w ok (m >>= k) (m' >>= k')

theorem value (ht : C.fine w t) : C.Value w (Pure.pure t) (Pure.pure t) :=
  C.pure fun _ hv => C.grows hv ht

theorem just (a : α) : C.Plain w (Pure.pure a) (Pure.pure a) := C.pure fun _ _ => trivial

theorem bool (b : Bool) : C.Value w (Pure.pure (.bool b)) (Pure.pure (.bool b)) := by
  cases b <;> exact C.value ((C.compound w).variant.mpr (C.plain rfl))

theorem placed {f : Nat → Term} (hf : ∀ i, C.fine w (f i)) :
    C.Value w (Session.fresh >>= fun i => Pure.pure (f i)) (Session.fresh >>= fun i => Pure.pure (f i)) :=
  C.bind C.fresh fun _ i hv _ => C.value (C.grows hv (hf i))

theorem mapM {r : C.Known → α → β → Prop} (hr : ∀ v u a b, C.le v u → r v a b → r u a b) {f f' : α → EvalM β}
    {as : List α} (hf : ∀ a ∈ as, C.Rel w (fun v b => r v a b) (f a) (f' a)) :
    C.Rel w (fun v bs => Forall₂ (r v) as bs) (as.mapM f) (as.mapM f') := by
  induction as generalizing w with
  | nil => exact C.pure fun _ _ => .nil
  | cons a as ih =>
    rw [mapM_cons, mapM_cons]
    refine C.bind (hf a (.head _)) fun v b hv hb => ?_
    refine C.bind (ih fun c hc => C.later (hf c (.tail _ hc)) hv) fun u bs hu hbs => ?_
    exact C.pure fun x hx => .cons (hr _ _ _ _ (C.trans hu hx) hb) (hbs.imp fun _ _ => hr _ _ _ _ hx)

/-! ### Views of values -/

theorem number (t : Term) : C.Plain w (Eval.number t) (Eval.number t) := by
  refine C.heap fun v h h' _ hm => ?_
  rw [C.resolve hm]
  split
  all_goals first | exact C.just _ | exact C.throw _

theorem numberKind (t : Term) (n : Number) : C.Plain w (Eval.numberKind t n) (Eval.numberKind t n) := by
  refine C.heap fun v h h' _ hm => ?_
  rw [C.resolve hm]
  split <;> exact C.just _

theorem ofNumber (n : Number) : C.Value w (Eval.ofNumber n) (Eval.ofNumber n) := by
  refine C.bind C.fresh fun _ i _ _ => ?_
  cases n <;> exact C.value (C.plain rfl)

theorem string (t : Term) : C.Plain w (Eval.string t) (Eval.string t) := by
  refine C.heap fun v h h' _ hm => ?_
  rw [C.resolve hm]
  split
  · exact C.just _
  · exact C.throw _

theorem boolean (t : Term) : C.Plain w (Eval.boolean t) (Eval.boolean t) := by
  refine C.heap fun v h h' _ hm => ?_
  rw [C.resolve hm]
  split
  all_goals first | exact C.just _ | exact C.throw _

theorem items (ht : C.fine w t) : C.Rel w (fun v xs => ∀ x ∈ xs, C.fine v x) (Eval.items t) (Eval.items t) := by
  refine C.heap fun v h h' hv hm => ?_
  have hl := C.resolves hm t (C.grows hv ht)
  rw [C.resolve hm]
  split
  · rename_i i xs hr
    rw [hr] at hl
    exact C.pure fun u hu x hx => C.grows hu ((C.compound _).list.mp hl x hx)
  · exact C.throw _

/-! ### Operations -/

section Operations
variable {ev ev' : Term → EvalM Term} {l r : Term} (hl : C.Value w (ev l) (ev' l)) (hr : C.Value w (ev r) (ev' r))
include hl hr

theorem numbers {f : Term → Number → Term → Number → EvalM Term} (hf : ∀ v x a y b, C.Value v (f x a y b) (f x a y b)) :
    C.Value w (do let x ← ev l; let a ← Eval.number x; let y ← ev r; let b ← Eval.number y; f x a y b)
      (do let x ← ev' l; let a ← Eval.number x; let y ← ev' r; let b ← Eval.number y; f x a y b) := by
  refine C.bind hl fun _ x h1 _ => C.bind (C.number x) fun _ a h2 _ => ?_
  exact C.bind (C.later hr (C.trans h1 h2)) fun _ y _ _ => C.bind (C.number y) fun v b _ _ => hf v x a y b

theorem arithmetic (op : Arithmetic) : C.Value w (Eval.arithmetic ev op l r) (Eval.arithmetic ev' op l r) := by
  refine C.numbers hl hr fun v x a y b => ?_
  split
  · exact C.ofNumber _
  · exact C.bind (C.numberKind x a) fun _ _ _ _ => C.bind (C.numberKind y b) fun _ _ _ _ => C.throw _

theorem comparison (op : Comparison) : C.Value w (Eval.comparison ev op l r) (Eval.comparison ev' op l r) := by
  refine C.numbers hl hr fun v x a y b => ?_
  split
  · exact C.bool _
  · exact C.bind (C.numberKind x a) fun _ _ _ _ => C.bind (C.numberKind y b) fun _ _ _ _ => C.throw _

theorem operation (op : BinaryOp) : C.Value w (Eval.operation rules ev op l r) (Eval.operation rules' ev' op l r) := by
  cases op with
  | add | sub | mul | div | floorDiv | exp | mod => exact C.arithmetic hl hr _
  | less | greater | lessEqual | greaterEqual => exact C.comparison hl hr _
  | equal | notEqual =>
    refine C.bind hl fun _ a h1 _ => C.bind (C.later hr h1) fun _ b _ _ => C.heap fun _ h h' _ hm => ?_
    exact C.bind (C.equal a b hm) fun _ _ _ _ => C.bool _
  | boolAnd =>
    refine C.bind hl fun _ a h1 _ => C.bind (C.boolean a) fun _ c h2 _ => ?_
    cases c with
    | true =>
      refine C.bind (C.later hr (C.trans h1 h2)) fun _ b _ _ => ?_
      exact C.bind (C.boolean b) fun _ _ _ _ => C.bool _
    | false => exact C.bool _
  | boolOr =>
    refine C.bind hl fun _ a h1 _ => C.bind (C.boolean a) fun _ c h2 _ => ?_
    cases c with
    | true => exact C.bool _
    | false =>
      refine C.bind (C.later hr (C.trans h1 h2)) fun _ b _ _ => ?_
      exact C.bind (C.boolean b) fun _ _ _ _ => C.bool _
  | stringConcat =>
    refine C.bind hl fun _ a h1 _ => C.bind (C.string a) fun _ _ h2 _ => ?_
    refine C.bind (C.later hr (C.trans h1 h2)) fun _ b _ _ => C.bind (C.string b) fun _ _ _ _ => ?_
    exact C.placed fun _ => C.plain rfl
  | listCons =>
    refine C.bind hl fun _ a h1 ha => C.bind (C.later hr h1) fun _ b h2 hb => C.bind (C.items hb) fun _ xs h3 hxs => ?_
    exact C.placed fun _ => (C.compound _).list.mpr (forall_mem_cons.mpr ⟨C.grows (C.trans h2 h3) ha, hxs⟩)
  | listAppend =>
    refine C.bind hl fun _ a h1 ha => C.bind (C.items ha) fun _ xs h2 hxs => ?_
    refine C.bind (C.later hr (C.trans h1 h2)) fun _ b h3 hb => C.placed fun _ => (C.compound _).list.mpr ?_
    exact forall_mem_append.mpr ⟨fun x hx => C.grows h3 (hxs x hx), forall_mem_singleton.mpr hb⟩
  | rightEval => exact hr
  | hasType | pipe | reversePipe => exact C.throw _

theorem part : C.Value w (Eval.part ev l r) (Eval.part ev' l r) := by
  refine C.bind hl fun _ t h1 ht => C.heap fun _ h h' h2 hm => ?_
  have hres := C.resolves hm t (C.grows h2 ht)
  rw [C.resolve hm]
  split
  · rename_i i fields hf
    rw [hf] at hres
    split
    · split
      · exact C.value ((C.compound _).record hres _ (Dict.mem_of_get? ‹_›))
      · exact C.throw _
    · exact C.throw _
  · rename_i i xs hxs
    rw [hxs] at hres
    refine C.heap fun _ h h' h3 hm => C.bind (C.later hr (C.trans h1 (C.trans h2 h3))) fun _ n h4 _ => ?_
    rw [C.resolve hm]
    dsimp only
    split
    · exact C.throw _
    · split
      · rename_i x hx
        obtain ⟨-, hx⟩ := Option.ite_none_left_eq_some.mp hx
        exact C.value (C.grows (C.trans h3 h4) ((C.compound _).list.mp hres x (mem_of_getElem? hx)))
      · exact C.throw _
  · exact C.throw _

end Operations

/-! ### Functions -/

theorem adopt {found : Env} (hf : Takes (C.fine w) names found) :
    C.Rel w (fun v env => Takes (C.fine v) names env) (Eval.adopt found) (Eval.adopt found) := by
  refine C.mono (C.mapM (r := fun v (p q : String × Term) => q.1 = p.1 ∧ C.fine v q.2)
    (fun _ _ p q hvu h => ⟨h.1, C.grows hvu h.2⟩) fun p hp => ?_) fun v env hv hall => hf.replaced hall
  have hl := hf.values p hp
  obtain ⟨k, t⟩ := p
  dsimp only at hl ⊢
  split
  · exact C.bind C.fresh fun _ i hv _ => C.pure fun u hu =>
      ⟨rfl, C.grows (C.trans hv hu) ((C.compound _).list.mpr ((C.compound _).list.mp hl))⟩
  · exact C.bind C.fresh fun _ i hv _ => C.pure fun u hu =>
      ⟨rfl, C.grows (C.trans hv hu) ((C.compound _).rest hl (.refl _))⟩
  · exact C.pure fun u hu => ⟨rfl, C.grows hu hl⟩

variable {C} in
theorem takes_later {found : Env} (hf : Takes (C.fine w) names found) (hv : C.le w v) : Takes (C.fine v) names found :=
  ⟨fun q hq => C.grows hv (hf.values q hq), hf.proper, hf.named⟩

theorem select {arg : Term} (harg : C.fine w arg) (cases : List (Term × Term)) :
    C.Rel w (fun v r => ∃ p, (p, r.2) ∈ cases ∧ Takes (C.fine v) (Sure p.spreadsLast p.freeVars) r.1)
      (Eval.select arg cases) (Eval.select arg cases) := by
  induction cases with
  | nil => exact C.throw _
  | cons c cs ih =>
    obtain ⟨p, b⟩ := c
    refine C.heap fun v h h' hv hm => ?_
    rw [matchPattern_alike (C.resolve hm)]
    split
    · have htakes := matchPattern_takes (C.compound v) (C.resolves hm) p arg _ (C.grows hv harg) ‹_›
      exact C.bind (C.adopt htakes) fun u env _ ht => C.pure fun x hx => ⟨p, .head _, takes_later ht hx⟩
    · refine C.mono (C.later ih hv) fun u r _ hr => ?_
      obtain ⟨q, hq, ht⟩ := hr
      exact ⟨q, .tail _ hq, ht⟩
    · exact C.throw _

theorem define {ev ev' : Term → EvalM Term} (ht : C.Value w (ev t) (ev' t)) (env env' : Env) (x : String) :
    C.Defines w env env' x (Eval.define rules ev env x t) (Eval.define rules' ev' env' x t) := by
  intro α ok k k' hk
  have hplaced : ∀ {v m m'}, C.le w v → C.Value v m m' → C.Rel v ok
      (m >>= fun u => Session.fresh >>= fun j => k (.environment j (env.set x u)))
      (m' >>= fun u => Session.fresh >>= fun j => k' (.environment j (env'.set x u))) := fun hv hm =>
    C.bind hm fun _ u h1 hu => C.bind C.fresh fun y j h2 _ => hk y j u (C.trans hv (C.trans h1 h2)) (C.grows h2 hu)
  unfold Eval.define
  rw [bind_assoc, bind_assoc]
  refine C.bind ht fun v value hv hl => ?_
  cases value with
  | closure e c =>
    have hnamed := hplaced hv (C.named x hl)
    simp only [bind_assoc, pure_bind] at hnamed ⊢
    exact hnamed
  | _ =>
    have hvalue := hplaced hv (C.value hl)
    simp only [bind_assoc, pure_bind] at hvalue ⊢
    exact hvalue

/-! ### Terms -/

structure Runs (run run' : Run) : Prop where
  value : ∀ {w env env' t}, C.Fits w env env' t → C.Value w (run env t) (run' env' t)
  definition : ∀ {w env env' i x t}, C.Fits w env env' t →
    C.Defines w env env' x (run env (.assign i x t)) (run' env' (.assign i x t))

section Terms
variable {C} {run run' : Run} (hrun : C.Runs run run')
include hrun

theorem applied {callee arg : Term} (hcallee : C.fine w callee) (harg : C.fine w arg) :
    C.Value w (Eval.applied rules run callee arg) (Eval.applied rules' run' callee arg) := by
  refine C.heap fun v h h' hv hm => ?_
  have hl := C.resolves hm callee (C.grows hv hcallee)
  have harg := C.grows hv harg
  rw [C.resolve hm]
  split
  · exact C.native _ harg
  · rename_i e code hr
    rw [hr] at hl
    split
    · split
      · exact C.heap fun u g g' hu hm => hrun.value (C.body hm (C.grows hu hl) ‹_› (C.grows hu harg))
      · exact C.throw _
    · refine C.bind (C.select harg _) fun u r hu hr => C.heap fun x g g' hx hm => ?_
      obtain ⟨p, hp, htakes⟩ := hr
      exact hrun.value (C.case hm (C.grows (C.trans hu hx) hl) hp (takes_later htakes hx))
    · exact C.throw _
  · exact C.throw _

/-- What a run of the parts does, a step does with the term. -/
theorem step {env env' : Env} (ht : C.Fits w env env' t) :
    C.Value w (Eval.step rules run env t) (Eval.step rules' run' env' t) := by
  refine C.heap fun v h h' hv hm => ?_
  have hfits := C.linked hm (C.still ht hv)
  rw [C.resolve hm]
  generalize h.resolve t = t at hfits
  have htext := C.text hfits
  have hpart := fun u hu => hrun.value (C.operand (u := u) hfits hu)
  cases t with
  | int | truth | float | complex | string | bytes | hole | native => exact C.value (C.plain rfl)
  | closure e c => exact C.value (C.closure hm hfits)
  | variant i tag u => exact C.bind (hpart u (.head _)) fun _ _ _ hu => C.placed fun _ => (C.compound _).variant.mpr hu
  | var i x =>
    obtain ⟨hsame, hx⟩ := C.var hfits
    dsimp only
    rw [hsame]
    split
    · exact C.value (hx _ ‹_›)
    · exact C.throw _
  | binop i op l r => exact C.operation (hpart l (.head _)) (hpart r (.tail _ (.head _))) op
  | list i xs =>
    refine C.bind (C.mapM (r := fun v _ u => C.fine v u) (fun _ _ _ _ h hu => C.grows h hu) hpart)
      fun _ us _ hus => C.placed fun _ => (C.compound _).list.mpr (forall_of_forall₂ hus)
  | record i fs =>
    have hfields : ∀ p ∈ fs, C.Rel v (fun v q => q.1 = p.1 ∧ C.fine v q.2) (do return (p.1, ← run env p.2))
        (do return (p.1, ← run' env' p.2)) := fun p hp =>
      C.bind (hpart p.2 (mem_parts_fields hp)) fun _ _ _ hu => C.pure fun _ h => ⟨rfl, C.grows h hu⟩
    exact C.bind (C.mapM (r := fun v (p q : String × Term) => q.1 = p.1 ∧ C.fine v q.2) (fun _ _ _ _ h hu => ⟨hu.1, C.grows h hu.2⟩)
      hfields) fun _ us _ hus => C.placed fun _ => C.record hfits hus
  | assign i x u =>
    obtain ⟨rfl, hu, henv⟩ := C.assign hfits
    have hdefined : C.Value v (_ >>= Pure.pure) (_ >>= Pure.pure) := C.define (hrun.value hu) env' env' x fun y j z hy hz =>
      C.value (henv y j z hy hz)
    rwa [bind_pure, bind_pure] at hdefined
  | scope i b d =>
    cases d with
    | assign j x u =>
      obtain ⟨hu, hb⟩ := C.scope hfits
      exact hrun.definition hu fun y _ z hy hz => hrun.value (hb y z hy hz)
    | _ => exact C.throw _
  | assert i u c =>
    refine C.bind (hpart c (.tail _ (.head _))) fun _ found h1 _ => C.heap fun _ h h' h2 hm => ?_
    refine C.bind (C.equal found (.bool true) hm) fun _ holds h3 _ => ?_
    cases holds with
    | true => exact C.later (hpart u (.head _)) (C.trans h1 (C.trans h2 h3))
    | false => exact C.bind (C.textOf (htext.part (.tail _ (.head _)))) fun _ _ _ _ => C.throw _
  | function i p b =>
    cases p with
    | var j x => exact C.capture hfits rfl
    | _ => exact C.bind (C.textOf (htext.part (.head _))) fun _ _ _ _ => C.throw _
  | matchFunction i cs => exact C.capture hfits rfl
  | apply i f a =>
    dsimp only
    split
    · exact C.quote hm hfits
    · refine C.bind (hpart f (.head _)) fun _ callee h1 hf => ?_
      refine C.bind (C.later (hpart a (.tail _ (.head _))) h1) fun _ arg h2 ha => ?_
      exact C.applied hrun (C.grows h2 hf) ha
  | access i o f => exact C.part (hpart o (.head _)) (hpart f (.tail _ (.head _)))
  | spread => exact C.throw _
  | matchCase | environment | relocation | link => exact C.bind (C.textOf htext) fun _ _ _ _ => C.throw _

end Terms

theorem Runs.succ {C : Congruence rules rules'} {n k : Nat} (hrun : C.Runs (evalBy rules n) (evalBy rules' k)) :
    C.Runs (evalBy rules (n + 1)) (evalBy rules' (k + 1)) where
  value ht := C.bind (C.note (C.text ht)) fun _ _ hv _ => C.step hrun (C.still ht hv)
  definition {w env env' i x t} ht := by
    intro α ok k k' hk
    have htext : (Term.assign i x t).Leaves (C.old w) :=
      leaves_of_parts rfl fun _ hu => mem_singleton.mp hu ▸ C.text ht
    simp only [evalBy, Eval.step, bind_assoc]
    refine C.bind (C.note htext) fun v _ hv _ => C.heap fun y h h' hy _ => ?_
    exact C.define (C.later (hrun.value ht) (C.trans hv hy)) env env' x fun z j u hz =>
      hk z j u (C.trans hv (C.trans hy hz))

theorem runs (n : Nat) : C.Runs (evalBy rules n) (evalBy rules' n) := by
  induction n with
  | zero =>
    refine ⟨fun _ => C.throw _, fun _ _ _ _ _ _ => ?_⟩
    exact C.bind (show C.Rel _ (fun _ _ => False) _ _ from C.throw _) fun _ _ _ h => h.elim
  | succ n ih => exact ih.succ

end Congruence

/-! ### One invariant -/

/-- `ok` holds of whatever the computation returns. -/
def Yields {α : Type} (ok : α → Prop) (m : EvalM α) : Prop := ∀ s a, (outcome m s).1 = .ok a → ok a

section Yields
variable {α β : Type} {ok : α → Prop} {ok' : β → Prop} {m : EvalM α} {f : α → EvalM β}

theorem Yields.bind (hm : Yields ok m) (hf : ∀ a, ok a → Yields ok' (f a)) : Yields ok' (m >>= f) := by
  intro s b hb
  obtain ⟨a, t, ha, hb⟩ := bind_returns (Prod.ext hb rfl : outcome (m >>= f) s = (.ok b, (outcome (m >>= f) s).2))
  exact hf a (hm s a (by rw [ha])) t b (by rw [hb])

theorem Yields.pure {a : α} (h : ok a) : Yields ok (Pure.pure a : EvalM α) := fun _ _ hb => by
  cases hb
  exact h

theorem Yields.throw (e : EvalError) : Yields ok (throw e) := fun _ _ hb => by cases hb

end Yields

/-- The closures and links in a heap satisfy `Q`. -/
structure Holds (Q : Term → Prop) (h : Heap) : Prop where
  envs : ∀ e, ∀ p ∈ h.envOf e, p.2.Leaves Q
  resolves : ∀ t : Term, t.Leaves Q → (h.resolve t).Leaves Q

theorem Holds.any (h : Heap) : Holds (fun _ => True) h := ⟨fun _ _ _ => .any _, fun _ _ => .any _⟩

def LeafWorlds.one : LeafWorlds :=
  ⟨Unit, fun _ _ => True, fun _ => trivial, fun _ _ => trivial, fun _ _ => True, fun _ h => h⟩

theorem LeafWorlds.kept_one {rules : Rules} {w : one.Known} {env : Env} {code : Term} {k : Env}
    (_ : rules.keep env code = .ok k) (_ : ∀ p ∈ env, p.2.Leaves (one.leaf w)) : ∀ p ∈ k, p.2.Leaves (one.leaf w) :=
  fun _ _ => .any _

/-- A relation between computations of runs by the same rules, in the same environments. -/
structure Uniform (rules : Rules) (W : LeafWorlds) extends Related W.worlds where
  heapNow : ∀ {w}, Rel w (fun v => Holds (W.leaf v)) heapNow heapNow
  textOf : ∀ {w} t, Rel w (fun _ _ => True) (textOf t) (textOf t)
  note : ∀ {w} t, Rel w (fun _ _ => True) (noteTerm "" t) (noteTerm "" t)
  kept : ∀ {w env code k}, rules.keep env code = .ok k → (∀ p ∈ env, p.2.Leaves (W.leaf w)) →
    ∀ p ∈ k, p.2.Leaves (W.leaf w)
  closure : ∀ {w env code}, (∀ p ∈ env, p.2.Leaves (W.leaf w)) → code.Leaves (W.leaf w) →
    Rel w (fun v t => t.Leaves (W.leaf v)) (onHeap fun h => h.newClosure env code)
      (onHeap fun h => h.newClosure env code)
  naming : ∀ {w e code} x, (Term.closure e code).Leaves (W.leaf w) → Rel w (fun _ _ => True)
    (onHeap fun h => ((), h.bind e x (.closure e code))) (onHeap fun h => ((), h.bind e x (.closure e code)))
  native : ∀ {w} f {t}, t.Leaves (W.leaf w) → Rel w (fun v t => t.Leaves (W.leaf v)) (rules.native f t) (rules.native f t)
  quote : ∀ {w t}, t.Leaves (W.leaf w) → Rel w (fun v t => t.Leaves (W.leaf v)) (rules.quote t) (rules.quote t)

namespace Uniform
variable {rules : Rules} {W : LeafWorlds} (U : Uniform rules W) {α : Type} {w : W.Known} {ok : W.Known → α → Prop}

theorem settled {r : Except EvalError α} (h : ∀ v a, W.le w v → r = .ok a → ok v a) :
    U.Rel w ok (Eval.settled r) (Eval.settled r) := by
  cases r with
  | ok a => exact U.pure fun v hv => h v a hv rfl
  | error e => exact U.throw e

theorem captureBy {env : Env} {code : Term} (henv : ∀ p ∈ env, p.2.Leaves (W.leaf w)) (hc : code.Leaves (W.leaf w)) :
    U.Rel w (fun v t => t.Leaves (W.leaf v)) (Eval.captureBy rules.keep env code)
      (Eval.captureBy rules.keep env code) :=
  U.bind (U.settled fun _ _ hv hk p hp => (U.kept hk henv p hp).mono fun _ => W.grows hv) fun _ _ hv hk =>
    U.closure hk (hc.mono fun _ => W.grows hv)

def congruence : Congruence rules rules where
  toWorlds := W.worlds
  toRelated := U.toRelated
  Meets w h h' := h' = h ∧ Holds (W.leaf w) h
  old := W.leaf
  Fits w env env' t := env' = env ∧ (∀ p ∈ env, p.2.Leaves (W.leaf w)) ∧ t.Leaves (W.leaf w)
  resolve hm _ := hm.1 ▸ rfl
  resolves hm := hm.2.resolves
  text ht := ht.2.2
  still ht hv := ⟨ht.1, fun p hp => (ht.2.1 p hp).mono fun _ => W.grows hv, ht.2.2.mono fun _ => W.grows hv⟩
  linked hm ht := ⟨ht.1, ht.2.1, hm.2.resolves _ ht.2.2⟩
  var ht := ⟨ht.1 ▸ rfl, fun _ hv => ht.2.1 _ (Dict.mem_of_get? hv)⟩
  closure _ ht := ht.2.2
  operand ht hu := ⟨ht.1, ht.2.1, ht.2.2.part (mem_parts_of_operands hu)⟩
  record _ h := leaves_record.mpr (forall_of_forall₂ (h.imp fun _ _ => And.right))
  scope ht := by
    obtain ⟨rfl, henv, ht⟩ := ht
    refine ⟨⟨rfl, henv, (ht.part (.tail _ (.head _))).part (.head _)⟩, fun v u hv hu => ?_⟩
    have henv := fun p hp => (henv p hp).mono fun _ => W.grows hv
    exact ⟨rfl, values_merge henv (values_set henv hu), (ht.part (.head _)).mono fun _ => W.grows hv⟩
  assign ht := ⟨ht.1, ⟨ht.1, ht.2.1, ht.2.2.part (.head _)⟩, fun _ _ _ hv hu =>
    leaves_environment.mpr (values_set (fun p hp => (ht.2.1 p hp).mono fun _ => W.grows hv) hu)⟩
  body hm hc _ ha := by
    obtain ⟨rfl, hm⟩ := hm
    exact ⟨rfl, values_set (hm.envs _) ha, (hc.part (.head _)).part (.tail _ (.head _))⟩
  case hm hc hp hf := by
    obtain ⟨rfl, hm⟩ := hm
    exact ⟨rfl, values_merge (hm.envs _) hf.values, (hc.part (.head _)).part (mem_parts_cases hp).2⟩
  heap hf := U.bind U.heapNow fun v h hv hh => hf v h h hv ⟨rfl, hh⟩
  textOf _ := U.textOf _
  note _ := U.note _
  equal a b hm := by
    obtain ⟨rfl, -⟩ := hm
    exact U.settled fun _ _ _ _ => trivial
  native := U.native
  quote _ ht := U.quote (ht.2.2.part (.tail _ (.head _)))
  capture ht _ := by
    obtain ⟨rfl, henv, ht⟩ := ht
    exact U.captureBy henv ht
  named x hc := by
    refine U.bind (U.naming x hc) fun _ _ h1 _ => U.bind U.heapNow fun _ h h2 hh => ?_
    exact U.captureBy (hh.envs _) ((hc.part (.head _)).mono fun _ h => W.grows h2 (W.grows h1 h))

theorem applied (n : Nat) {f x : Term} (hf : f.Leaves (W.leaf w)) (hx : x.Leaves (W.leaf w)) :
    U.Rel w (fun v t => t.Leaves (W.leaf v)) (Eval.applied rules (evalBy rules n) f x)
      (Eval.applied rules (evalBy rules n) f x) :=
  Congruence.applied (U.congruence.runs n) hf hx

end Uniform

end Eval

end Scrap
