import Scrap.Proofs.Eval.Keeping
import Scrap.Proofs.Eval.Trimming

/-! # What code comes to

Rules for code that returns: from a heap, computation by computation and construct by construct, to what it returns and
the heap it leaves. The numbers in code do not matter. -/

namespace Scrap

/-- The heap after one more number was handed out. -/
abbrev Heap.used (h : Heap) : Heap := { h with next := h.next + 1 }

namespace Eval

open Term Session

variable {env : Env} {h : Heap} {cs : List (Term × Term)} {i j : Nat} {α : Type} {m : Nat → EvalM α} {l r t v : Term}
  {post : Term → Heap → Prop} {a : α} {code : Term} {xs : List Term} {n : Int} {b : Bool}

/-- From some depth on the computation returns, from each session with this heap; `post` holds of what it returns and
of the heap it leaves. -/
def Comes {α : Type} (h : Heap) (m : Nat → EvalM α) (post : α → Heap → Prop) : Prop :=
  ∀ s : Session, s.heap = h → ∃ N a t, (∀ n, N ≤ n → outcome (m n) s = (.ok a, t)) ∧ post a t.heap

/-- What evaluation of the code comes to, wherever it is placed. -/
def Evals (h : Heap) (env : Env) (t : Term) (post : Term → Heap → Prop) : Prop :=
  ∀ k, Comes h (fun n => eval n env (t.placeFrom k).1) post

/-- What a call comes to. -/
def Calls (h : Heap) (callee arg : Term) (post : Term → Heap → Prop) : Prop :=
  Comes h (fun n => applied .standard (eval n) callee arg) post

section Rules
variable {β : Type} {post : α → Heap → Prop}

theorem Comes.mono {post' : α → Heap → Prop} (hm : Comes h m post) (hp : ∀ a g, post a g → post' a g) :
    Comes h m post' := fun s hs => by
  obtain ⟨N, a, t, ho, ha⟩ := hm s hs
  exact ⟨N, a, t, ho, hp a t.heap ha⟩

theorem Comes.pure (hp : post a h) : Comes h (fun _ => Pure.pure a) post := fun s hs =>
  ⟨0, a, s, fun _ _ => rfl, hs ▸ hp⟩

theorem Comes.bind {f : α → Nat → EvalM β} {post : β → Heap → Prop} (hm : Comes h m fun a g => Comes g (f a) post) :
    Comes h (fun n => m n >>= fun a => f a n) post := fun s hs => by
  obtain ⟨N, a, t, ho, ha⟩ := hm s hs
  obtain ⟨M, b, u, ho', hb⟩ := ha t rfl
  refine ⟨max N M, b, u, fun n hn => ?_, hb⟩
  rw [bind_ok (ho n (Nat.le_trans (Nat.le_max_left _ _) hn)), ho' n (Nat.le_trans (Nat.le_max_right _ _) hn)]

theorem comes_heapNow {f : Heap → Nat → EvalM α} (hf : Comes h (f h) post) :
    Comes h (fun n => heapNow >>= fun g => f g n) post :=
  Comes.bind fun s hs => ⟨0, s.heap, s, fun _ _ => rfl, by rwa [hs]⟩

theorem comes_fresh {f : Nat → Nat → EvalM α} (hf : Comes h.used (f h.next) post) :
    Comes h (fun n => fresh >>= fun i => f i n) post :=
  Comes.bind fun s hs => ⟨0, s.heap.next, _, fun _ _ => rfl, by rwa [hs]⟩

theorem comes_onHeap {f : β → Nat → EvalM α} {F : Heap → β × Heap} (hf : Comes (F h).2 (f (F h).1) post) :
    Comes h (fun n => onHeap F >>= fun a => f a n) post :=
  Comes.bind fun s hs => ⟨0, (F s.heap).1, _, fun _ _ => rfl, by rwa [hs]⟩

theorem comes_eval {env : Env} {post : Term → Heap → Prop}
    (ht : Comes h (fun n => step .standard (eval n) env t) post) : Comes h (fun n => eval n env t) post := fun s hs => by
  have hnote : ∃ s', outcome (liftM (noteTerm "" t) : EvalM Unit) s = (.ok (), s') ∧ s'.heap = s.heap := by
    rw [outcome_noteTerm]
    split
    · split <;> exact ⟨_, rfl, rfl⟩
    · exact ⟨_, rfl, rfl⟩
  obtain ⟨s', ho, hheap⟩ := hnote
  obtain ⟨N, a, u, hN, ha⟩ := ht s' (hheap.trans hs)
  refine ⟨N + 1, a, u, fun n hn => ?_, ha⟩
  obtain ⟨k, rfl⟩ := Nat.exists_eq_add_of_le' hn
  show outcome (evalBy .standard (k + N + 1) env t) s = _
  rw [evalBy, bind_ok ho]
  exact hN _ (Nat.le_add_left N k)

end Rules

/-! ### Values in a heap -/

/-- A list with the given items. -/
def IsList (h : Heap) (t : Term) (xs : List Term) : Prop :=
  (∃ i, h.resolve t = .list i xs) ∧ ∀ i, t = .link i → i < h.next

/-- A closure over the given environment. -/
def Closes (h : Heap) (t code : Term) (env : Env) : Prop :=
  ∃ e k, t = .closure e (code.placeFrom k).1 ∧ e < h.envs.size ∧ h.envOf e = env

/-- A truth value of the language. -/
def IsBool (t : Term) (b : Bool) : Prop := ∃ i j, t = .variant i (if b then "true" else "false") (.hole j)

section Values
variable {g : Heap}

theorem IsList.kept (hl : IsList h t xs) (hg : h.Kept g) : IsList g t xs := by
  obtain ⟨⟨i, hi⟩, hlt⟩ := hl
  refine ⟨⟨i, ?_⟩, fun j hj => Nat.lt_of_lt_of_le (hlt j hj) hg.next⟩
  cases t with
  | link j => rw [hg.knots j (hlt j rfl), hi]
  | _ => exact hi

theorem isList_list (i : Nat) (xs : List Term) : IsList h (.list i xs) xs := ⟨⟨i, rfl⟩, fun _ hj => by cases hj⟩

theorem Closes.later (hc : Closes h t code env) (hg : h.Later g) : Closes g t code env := by
  obtain ⟨e, k, rfl, he, rfl⟩ := hc
  exact ⟨e, k, rfl, Nat.lt_of_lt_of_le he hg.size, hg.envs e he⟩

theorem isBool_bool (b : Bool) : IsBool (.bool b) b := by
  cases b <;> exact ⟨_, _, rfl⟩

theorem later_next : h.Later h.used :=
  ⟨Nat.le_succ _, Nat.le_refl _, fun _ _ => rfl, fun _ _ => rfl⟩

theorem later_newClosure (env : Env) (code : Term) : h.Later (h.newClosure env code).2 where
  next := Nat.le_refl _
  size := (h.kept_newClosure env code).size
  envs _ he := Heap.envOf_push.trans (if_neg (Nat.ne_of_lt he))
  knots _ _ := rfl

end Values

/-! ### Views of values -/

theorem comes_look {post : α → Heap → Prop}
    (hm : ∀ n s, s.heap = h → outcome (m n) s = (.ok a, s)) (hp : post a h) : Comes h m post := fun s hs =>
  ⟨0, a, s, fun n _ => hm n s hs, hs ▸ hp⟩

theorem comes_items (hl : IsList h t xs) {post : List Term → Heap → Prop} (hp : post xs h) :
    Comes h (fun _ => items t) post := by
  obtain ⟨⟨i, hi⟩, -⟩ := hl
  refine comes_look (fun _ s hs => ?_) hp
  rw [items, bind_ok (outcome_heapNow s), hs, hi]
  rfl

theorem comes_number (hn : t.int? = some n) {post : Number → Heap → Prop} (hp : post (.int n) h) :
    Comes h (fun _ => number t) post := by
  cases t <;> cases hn <;> exact comes_look (fun _ _ _ => rfl) hp

theorem comes_boolean (hb : IsBool t b) {post : Bool → Heap → Prop} (hp : post b h) :
    Comes h (fun _ => boolean t) post := by
  obtain ⟨i, j, rfl⟩ := hb
  cases b <;> exact comes_look (fun _ _ _ => rfl) hp

/-! ### Constructs -/

section Terms
variable {f a : Term}

theorem Evals.mono {post' : Term → Heap → Prop} (he : Evals h env a post) (hp : ∀ v g, post v g → post' v g) :
    Evals h env a post' := fun k => (he k).mono hp

theorem evals_var {x : String} (hx : env.get? x = some v) (hp : post v h) : Evals h env (.var i x) post := by
  intro k
  refine comes_eval (comes_heapNow ?_)
  dsimp only [placeFrom, Heap.resolve]
  rw [hx]
  exact .pure hp

theorem evals_int (hp : ∀ k, post (.int k n) h) : Evals h env (.int i n) post := fun k =>
  comes_eval (comes_heapNow (.pure (hp k)))

theorem evals_nil (hp : ∀ k, post (.list k []) h.used) : Evals h env (.list i []) post :=
  fun _ => comes_eval (comes_heapNow (Comes.bind (Comes.pure (comes_fresh (.pure (hp _))))))

theorem evals_bool (hp : ∀ v, IsBool v b → post v h.used) :
    Evals h env (.variant i (if b then "true" else "false") (.hole j)) post := fun _ =>
  comes_eval (comes_heapNow (Comes.bind (comes_eval (comes_heapNow (.pure (comes_fresh (.pure (hp _ ⟨_, _, rfl⟩))))))))

/-- Whether the term is the name that stops evaluation. -/
def isQuote : Term → Bool
  | .var _ x => x = "$$quote"
  | _ => false

theorem evals_apply (hf : isQuote f = false) (hp : Evals h env f fun c g => Evals g env a fun v g' => Calls g' c v post) :
    Evals h env (.apply i f a) post := by
  intro k
  refine comes_eval (comes_heapNow ?_)
  dsimp only [placeFrom, Heap.resolve]
  have hcall := Comes.bind ((hp (k + 1)).mono fun c g hc => Comes.bind (hc (f.placeFrom (k + 1)).2))
  split
  · rename_i j hj
    cases f <;> cases hj
    cases hf
  · exact hcall

theorem evals_binop {op : BinaryOp}
    (hp : ∀ j k, Comes h (fun n => operation .standard (eval n env) op (l.placeFrom j).1 (r.placeFrom k).1) post) :
    Evals h env (.binop i op l r) post := fun _ =>
  comes_eval (comes_heapNow (hp _ _))

theorem evals_cons (hp : Evals h env l fun v g => Evals g env r fun w g' => ∃ xs, IsList g' w xs ∧
      ∀ k, post (.list k (v :: xs)) g'.used) : Evals h env (.binop i .listCons l r) post := by
  refine evals_binop fun j k => Comes.bind ((hp j).mono fun v g hr => Comes.bind ((hr k).mono fun w g' hw => ?_))
  obtain ⟨xs, hxs, hp⟩ := hw
  exact Comes.bind (comes_items hxs (comes_fresh (.pure (hp _))))

theorem evals_append (hp : Evals h env l fun w g => ∃ xs, IsList g w xs ∧ Evals g env r fun v g' =>
      ∀ k, post (.list k (xs ++ [v])) g'.used) : Evals h env (.binop i .listAppend l r) post := by
  refine evals_binop fun j k => Comes.bind ((hp j).mono fun w g hw => ?_)
  obtain ⟨xs, hxs, hr⟩ := hw
  refine Comes.bind (comes_items hxs (Comes.bind ((hr k).mono fun v g' hp => ?_)))
  exact comes_fresh (.pure (hp _))

theorem evals_sub (hp : Evals h env l fun v g => ∃ m, v.int? = some m ∧ Evals g env r fun w g' => ∃ n, w.int? = some n ∧
      ∀ k, post (.int k (m - n)) g'.used) : Evals h env (.binop i .sub l r) post := by
  refine evals_binop fun j k => Comes.bind ((hp j).mono fun v g hv => ?_)
  obtain ⟨m, hm, hr⟩ := hv
  refine Comes.bind (comes_number hm (Comes.bind ((hr k).mono fun w g' hw => ?_)))
  obtain ⟨n, hn, hp⟩ := hw
  exact Comes.bind (comes_number hn (comes_fresh (.pure (hp _))))

theorem evals_comparison {op : Comparison} {m : Int} (hop : Number.test op (.int m) (.int n) = .ok b)
    (hl : Evals h env l fun v g => v.int? = some m ∧ Evals g env r fun w g' => w.int? = some n ∧
      post (.bool b) g') (j k : Nat) : Comes h (fun d => comparison (eval d env) op (l.placeFrom j).1 (r.placeFrom k).1) post := by
  refine Comes.bind ((hl j).mono fun v g hv => ?_)
  refine Comes.bind (comes_number hv.1 (Comes.bind ((hv.2 k).mono fun w g' hw => ?_)))
  refine Comes.bind (comes_number hw.1 ?_)
  rw [hop]
  exact .pure hw.2

/-- The right side is evaluated only if the left one does not decide. -/
theorem evals_connective (hp : Evals h env l fun v g => ∃ c, IsBool v c ∧ if c = b then
      Evals g env r fun w g' => ∃ d, IsBool w d ∧ post (.bool d) g' else post (.bool (!b)) g) :
    Evals h env (.binop i (if b then .boolAnd else .boolOr) l r) post := by
  cases b
  all_goals
    refine evals_binop fun j k => Comes.bind ((hp j).mono fun v g hv => ?_)
    obtain ⟨c, hc, hr⟩ := hv
    refine Comes.bind (comes_boolean hc ?_)
    cases c
  · refine Comes.bind ((hr k).mono fun w g' hw => ?_)
    obtain ⟨d, hd, hp⟩ := hw
    exact Comes.bind (comes_boolean hd (.pure hp))
  · exact .pure hr
  · exact .pure hr
  · refine Comes.bind ((hr k).mono fun w g' hw => ?_)
    obtain ⟨d, hd, hp⟩ := hw
    exact Comes.bind (comes_boolean hd (.pure hp))

end Terms

/-! ### Functions -/

section Functions
variable {E : Env} {arg b : Term} {x : String} {names : List String} {N : List String} {z : Term} {y : String}

theorem comes_capture (hn : code.freeVars = .ok names)
    (hp : post (.closure h.envs.size code) (h.newClosure (env.restrict names) code).2) :
    Comes h (fun _ => captureBy trimmed env code) post := by
  unfold captureBy trimmed
  rw [hn]
  exact fun s hs => ⟨0, _, _, fun _ _ => rfl, by rwa [hs]⟩

theorem closes_new (k : Nat) : Closes (h.newClosure E (code.placeFrom k).1).2
    (.closure h.envs.size (code.placeFrom k).1) code E :=
  ⟨_, k, rfl, by simp [Heap.newClosure], Heap.envOf_push.trans (if_pos rfl)⟩

def isLambda : Term → Bool
  | .function _ (.var _ _) _ | .matchFunction _ _ => true
  | _ => false

theorem evals_lambda (hc : isLambda code = true)
    (hn : ∀ k, (code.placeFrom k).1.freeVars = .ok N) (hp : ∀ k, post (.closure h.envs.size (code.placeFrom k).1)
      (h.newClosure (env.restrict N) (code.placeFrom k).1).2) : Evals h env code post := by
  intro k
  unfold isLambda at hc
  split at hc
  · exact comes_eval (comes_heapNow (comes_capture (hn k) (hp k)))
  · exact comes_eval (comes_heapNow (comes_capture (hn k) (hp k)))
  · cases hc

theorem evals_closure (hc : isLambda code = true) (hn : ∀ k, (code.placeFrom k).1.freeVars = .ok N)
    (hp : ∀ v g, h.Later g → Closes g v code (env.restrict N) → post v g) : Evals h env code post :=
  evals_lambda hc hn fun k => hp _ _ (later_newClosure _ _) (closes_new k)

theorem calls_function (hv : Closes h v (.function i (.var j x) b) E) (hb : Evals h (E.set x arg) b post) :
    Calls h v arg post := by
  obtain ⟨e, k, rfl, he, rfl⟩ := hv
  exact comes_heapNow (comes_heapNow (hb _))

/-! ### Cases -/

section Select
variable {p : Term} {d : Env} {post : Env × Term → Heap → Prop}

theorem comes_select (hm : matchPattern h p arg = .ok (some d))
    (hp : Comes h (fun _ => adopt d) fun env g => post (env, b) g) :
    Comes h (fun _ => select arg ((p, b) :: cs)) post := by
  refine comes_heapNow ?_
  rw [hm]
  exact Comes.bind (hp.mono fun env g hp => .pure hp)

theorem comes_select_next (hm : matchPattern h p arg = .ok none) (hp : Comes h (fun _ => select arg cs) post) :
    Comes h (fun _ => select arg ((p, b) :: cs)) post := by
  refine comes_heapNow ?_
  rw [hm]
  exact hp

end Select

theorem calls_match (hv : Closes h v (.matchFunction i cs) E)
    (hp : ∀ k, Comes h (fun _ => select arg (placeCases k cs).1) fun r g => h.Later g ∧
      Comes g (fun n => eval n (E.merge r.1) r.2) post) : Calls h v arg post := by
  obtain ⟨e, k, rfl, he, rfl⟩ := hv
  refine comes_heapNow (Comes.bind ((hp _).mono fun r g hr => comes_heapNow ?_))
  rw [hr.1.envs e he]
  exact hr.2

/-- The cases of a function on lists. -/
def onList (z : Term) (x y : String) (b : Term) : List (Term × Term) :=
  [(.list 0 [], z), (.list 0 [.var 0 x, .spread 0 (some y)], b)]

theorem calls_nil (hv : Closes h v (.matchFunction i (onList z x y b)) E) (hl : IsList h arg [])
    (hz : Evals h E z post) : Calls h v arg post := by
  obtain ⟨⟨_, hl⟩, -⟩ := hl
  refine calls_match hv fun k => comes_select (d := []) ?_ ?_
  · simp [matchPattern, hl, matchItems]
  · exact Comes.pure ⟨.refl h, hz _⟩

/-- Whether a match leaves the term as it is: a list or record without a number gets one. -/
def isPlaced : Term → Bool
  | .list 0 _ | .record 0 _ => false
  | _ => true

theorem adopt_placed (ht : isPlaced t = true) (d : Env) :
    adopt ((x, t) :: d) = adopt d >>= fun d' => pure ((x, t) :: d') := by
  unfold adopt
  rw [List.mapM_cons]
  cases t with
  | list i _ | record i _ =>
    cases i with
    | zero => cases ht
    | succ => simp
  | _ => simp

theorem calls_cons {ts : List Term} (hv : Closes h v (.matchFunction i (onList z x y b)) E)
    (hxy : x ≠ y) (hl : IsList h arg (t :: ts)) (ht : isPlaced t = true)
    (hb : ∀ k, Evals h.used ((E.set x t).set y (.list k ts)) b post) : Calls h v arg post := by
  obtain ⟨⟨_, hl⟩, -⟩ := hl
  refine calls_match hv fun k => comes_select_next ?_ (comes_select (d := [(x, t), (y, .list 0 ts)]) ?_ ?_)
  · simp [matchPattern, hl, matchItems]
  · simp [matchPattern, hl, matchItems, Dict.merge, Dict.set, hxy]
  · rw [adopt_placed ht]
    exact Comes.bind (Comes.bind (comes_fresh (.pure (.pure (.pure ⟨later_next, hb _ _⟩)))))

theorem calls_number (hv : Closes h v (.matchFunction i [(.int 0 0, z), (.var 0 x, b)]) E) (hn : arg.int? = some n)
    (hp : if n = 0 then Evals h E z post else Evals h (E.set x arg) b post) : Calls h v arg post := by
  have hres : h.resolve arg = arg := by cases arg <;> first | rfl | cases hn
  have hplaced : isPlaced arg = true := by cases arg <;> first | rfl | cases hn
  refine calls_match hv fun k => ?_
  by_cases h0 : n = 0
  · rw [if_pos h0] at hp
    refine comes_select (d := []) ?_ (Comes.pure ⟨.refl h, hp _⟩)
    simp [matchPattern, hres, hn, h0]
  · rw [if_neg h0] at hp
    refine comes_select_next ?_ (comes_select (d := [(x, arg)]) ?_ ?_)
    · simp [matchPattern, hres, hn, h0]
    · simp [matchPattern]
    · rw [adopt_placed hplaced]
      exact Comes.bind (.pure (.pure ⟨.refl h, hp _⟩))

theorem calls_bool {b' : Term} {c : Bool}
    (hv : Closes h v (.matchFunction i [(.variant 0 "true" (.hole 0), b), (.variant 0 "false" (.hole 0), b')]) E)
    (hc : IsBool arg c) (hp : Evals h E (if c then b else b') post) : Calls h v arg post := by
  obtain ⟨j, k, rfl⟩ := hc
  refine calls_match hv fun k => ?_
  cases c with
  | true => exact comes_select (d := []) (by simp [matchPattern, Heap.resolve]) (Comes.pure ⟨.refl h, hp _⟩)
  | false =>
    refine comes_select_next ?_ (comes_select (d := []) ?_ (Comes.pure ⟨.refl h, hp _⟩)) <;>
      simp [matchPattern, Heap.resolve]

theorem later_named (E : Env) (code t : Term) (x : String) : h.Later ((h.newClosure E code).2.bind h.envs.size x t) ∧
    ((h.newClosure E code).2.bind h.envs.size x t).envOf h.envs.size = E.set x t := by
  have hlt : h.envs.size < (h.newClosure E code).2.envs.size := by simp [Heap.newClosure]
  have henv : ∀ e, (h.newClosure E code).2.envOf e = if e = h.envs.size then E else h.envOf e := fun _ => Heap.envOf_push
  have hbind := fun e => Heap.envOf_setEnv hlt (((h.newClosure E code).2.envOf h.envs.size).set x t) e
  refine ⟨⟨Nat.le_refl _, ?_, fun e he => ?_, fun _ _ => rfl⟩, ?_⟩
  · exact Nat.le_trans (Nat.le_of_lt hlt) (Nat.le_of_eq (Heap.size_setEnv _ _ _).symm)
  · rw [Heap.bind, hbind, if_neg (Nat.ne_of_lt he), henv, if_neg (Nat.ne_of_lt he)]
  · rw [Heap.bind, hbind, if_pos rfl, henv, if_pos rfl]

/-- A definition of a function that does not call itself. -/
theorem evals_where {c : Term} {k l : Nat} (henv : env.Proper)
    (hn : ∀ k, ((Term.function i (.var j y) c).placeFrom k).1.freeVars = .ok N)
    (hp : ∀ v g E, h.Later g → Closes g v (.function i (.var j y) c) E →
      (∀ z, z ≠ x → E.get? z = (env.restrict N).get? z) → ∀ env', env'.Proper →
      (∀ z, env'.get? z = if z = x then some v else env.get? z) → Evals g env' b post) :
    Evals h env (.scope k b (.assign l x (.function i (.var j y) c))) post := by
  intro m
  refine comes_eval (comes_heapNow (Comes.bind (comes_eval (comes_heapNow (Comes.bind ?_)))))
  refine comes_eval (comes_heapNow (comes_capture (hn _) ?_))
  refine comes_onHeap (comes_heapNow (Comes.bind (comes_capture (hn _) ?_)))
  refine comes_fresh (.pure ?_)
  obtain ⟨hl, hname⟩ := later_named (h := h) (env.restrict N)
    ((Term.function i (.var j y) c).placeFrom ((b.placeFrom (m + 1)).2 + 1)).1 (.closure h.envs.size
      ((Term.function i (.var j y) c).placeFrom ((b.placeFrom (m + 1)).2 + 1)).1) x
  -- the copy forgets the name again
  refine hp _ _ _ ((hl.trans (later_newClosure _ _)).trans later_next) ((closes_new _).later later_next) (fun z hz => ?_) _
    (henv.merge _) (fun z => ?_) _
  · refine (congrArg (fun d => (Dict.restrict d N).get? z) hname).trans ?_
    rw [Dict.get?_restrict, Dict.get?_set, if_neg hz, Dict.get?_restrict]
    split <;> rfl
  · rw [Dict.get?_merge (henv.set _ _), Dict.get?_set]
    split
    · rfl
    · exact Option.or_self

end Functions

end Eval

end Scrap
