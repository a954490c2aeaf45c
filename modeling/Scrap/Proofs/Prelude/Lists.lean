import Scrap.Proofs.Prelude.Code

/-! # The functions on lists

The functions of the prelude do what their names say, whatever the functions that they are given do to the heap: they
make objects and give names, which leaves the closures of the prelude as they are. -/

namespace Scrap.Prelude

open Term Eval List Dict

variable {D : Heap → Heap → Prop} {F : String × Nat × Term} {a f : Term} {post : Term → Heap → Prop} {env : Env}
  {l : Term} {xs : List Term}

/-! ### Worlds -/

/-- What the functions of the prelude need of the heaps they run in: `D` leads from a heap to what becomes of it, and
`V` holds of the values in a heap. -/
structure World (V : Heap → Term → Prop) (h₀ : Heap) (D : Heap → Heap → Prop) : Prop where
  int : ∀ {h k n}, V h (.int k n)
  list : ∀ {h k ts}, (∀ t ∈ ts, V h t) → V h (.list k ts)
  later : ∀ {h g t}, D h g → V h t → V g t
  refl : ∀ h, D h h
  trans : ∀ {h g g'}, D h g → D g g' → D h g'
  used : ∀ {h}, D h h.used
  closure : ∀ {h E c k}, (∀ p ∈ E, V h p.2) → agrees c c = true → D h (h.newClosure E (c.placeFrom k).1).2
  intact : ∀ {h}, D h₀ h → Intact h
  envs : ∀ {h}, D h₀ h → ∀ e, ∀ p ∈ h.envOf e, V h p.2

/-- The items up to the first that does not satisfy `p`, which is the last. -/
def upTo (p : Term → Bool) : List Term → List Term
  | [] => []
  | x :: xs => x :: if p x then upTo p xs else []

/-- The value comes from `a` by one step `R` for each item, from the last to the first. -/
def Folds (R : Heap → Term → Term → Term → Prop) (g : Heap) (a : Term) : List Term → Term → Prop
  | [], v => v = a
  | x :: xs, v => ∃ b, Folds R g a xs b ∧ R g x b v

/-- A function that waits for the list. -/
def Awaits (D : Heap → Heap → Prop) (h : Heap) (xs : List Term) (post : Term → Heap → Prop) (v : Term) (g : Heap) : Prop :=
  D h g ∧ h.Later g ∧ ∀ l, IsList g l xs → Calls g v l post

theorem evals_awaited {h : Heap} {A L : String}
    (hown : Serves env F) (hq : isQuote (name F.1) = false)
    (hA : env.get? A = some a) (hL : env.get? L = some l) (hl : IsList h l xs)
    (hcalls : ∀ c, Own F c → Calls h c a (Awaits D h xs post)) :
    Evals h env (call (call (name F.1) (name A)) (name L)) post := by
  obtain ⟨c, hc, hget⟩ := hown
  refine evals_apply rfl (evals_apply hq (evals_var hget (evals_var hA ((hcalls c hc).mono fun v g hv => ?_))))
  exact evals_var hL (hv.2.2 l (hl.kept hv.2.1.kept))

section Functions
variable {V : Heap → Term → Prop} {h₀ h : Heap} {c m z b : Term} {p x y : String} {names : List String}
  (hw : World V h₀ D) {n : Nat}
include hw

theorem World.own (hd : D h₀ h) (hc : Own F c) : ∃ E, Closes h c F.2.2 E ∧ Serves E F ∧ ∀ q ∈ E, V h q.2 := by
  obtain ⟨e, he, rfl⟩ := hc
  exact ⟨_, ⟨e, _, rfl, Nat.lt_of_lt_of_le (lt_of_role he).2 (hw.intact hd).size, rfl⟩, (hw.intact hd).names e F he,
    hw.envs hd e⟩

theorem World.lambda (henv : ∀ q ∈ env, V h q.2) (hm : isLambda m = true) (hs : agrees m m = true)
    (hn : ∀ k, (m.placeFrom k).1.freeVars = .ok names)
    (hp : ∀ v g, D h g → h.Later g → Closes g v m (env.restrict names) → (∀ q ∈ env.restrict names, V g q.2) → post v g) :
    Evals h env m post := by
  have hV : ∀ q ∈ env.restrict names, V h q.2 := fun q hq => henv q (mem_restrict.mp hq).1
  refine evals_lambda hm hn fun k => ?_
  have hd := hw.closure (k := k) hV hs
  exact hp _ _ hd (later_newClosure _ _) (closes_new k) fun q hq => hw.later hd (hV q hq)

/-- The first argument is kept for when the second comes. -/
theorem World.calls_first (hd : D h₀ h) (hF : F.2.2 = fn p m) (hm : isLambda m = true) (hs : agrees m m = true)
    (hn : ∀ k, (m.placeFrom k).1.freeVars = .ok names) (hmem : F.1 ∈ names ∧ p ∈ names ∧ F.1 ≠ p) (hc : Own F c)
    (ha : V h a) (hp : ∀ v g E, D h g → h.Later g → Closes g v m E → (∀ q ∈ E, V g q.2) → Serves E F →
      E.get? p = some a → post v g) : Calls h c a post := by
  obtain ⟨E, hE, ⟨c', hc', hget⟩, hV⟩ := hw.own hd hc
  rw [hF] at hE
  refine calls_function hE (hw.lambda (values_set hV ha) hm hs hn fun v g hg hlater hv hV => ?_)
  refine hp v g _ hg hlater hv hV ⟨c', hc', ?_⟩ ?_ <;> simp [get?_restrict, get?_set, hmem, hget]

/-- A function on a list, with one argument before the list. -/
theorem World.calls_onList (hd : D h₀ h) (hF : F.2.2 = fn p (.matchFunction 0 (onList z x y b)))
    (hs : agrees (.matchFunction 0 (onList z x y b)) (.matchFunction 0 (onList z x y b)) = true)
    (hn : ∀ k, ((Term.matchFunction 0 (onList z x y b)).placeFrom k).1.freeVars = .ok names)
    (hmem : (F.1 ∈ names ∧ p ∈ names) ∧ [F.1, p, x, y].Nodup) (hc : Own F c) (ha : V h a)
    (hxs : ∀ t ∈ xs, V h t ∧ isPlaced t = true) (hnil : xs = [] → ∀ g E, D h g → Evals g E z post)
    (hcons : ∀ t ts, xs = t :: ts → ∀ g E k, D h g → (∀ q ∈ E, V g q.2) → Serves E F → E.get? p = some a →
      E.get? x = some t → E.get? y = some (.list k ts) → Evals g E b post) : Calls h c a (Awaits D h xs post) := by
  refine hw.calls_first hd hF rfl hs hn ⟨hmem.1.1, hmem.1.2, by grind⟩ hc ha fun v g E hg hlater hv hV hown hp => ?_
  refine ⟨hg, hlater, fun l hl => ?_⟩
  cases xs with
  | nil => exact calls_nil hv hl (hnil rfl g E hg)
  | cons t ts =>
    have ht := hxs t (.head _)
    have hd' := hw.trans hg hw.used
    refine calls_cons hv (by grind) hl ht.2 fun k => ?_
    obtain ⟨c', hc', hget'⟩ := hown
    have hlist : V g.used (.list k ts) := hw.list fun u hu => hw.later hd' (hxs u (.tail _ hu)).1
    refine hcons t ts rfl _ _ k hd' (values_set (values_set (fun q hq => hw.later hw.used (hV q hq)) (hw.later hd' ht.1))
      hlist) ⟨c', hc', ?_⟩ ?_ ?_ ?_ <;>
      simp only [get?_set] <;> grind

/-! ### Functions of one argument and a list -/

section Call
variable {xs : List Term} (hf : V h₀ f) (hxs : ∀ t ∈ xs, V h₀ t ∧ isPlaced t = true) (hd : D h₀ h) {p : Term → Bool}
include hf hxs hd

theorem World.calls_map {R : Heap → Term → Term → Prop} (hR : ∀ {g g' x v}, D g g' → R g x v → R g' x v)
    (hcall : ∀ g, D h₀ g → ∀ x ∈ xs, Calls g f x fun v g' => D g g' ∧ R g' x v) (hc : Own ("map", 133, mapCode) c) :
    Calls h c f (Awaits D h xs fun v g => D h g ∧ ∃ ys, IsList g v ys ∧ Forall₂ (R g) xs ys) := by
  induction xs generalizing h c with
  | nil =>
    refine hw.calls_onList hd rfl rfl (fun _ => rfl) (by decide) hc (hw.later hd hf) (by simp) (fun _ g E hg => ?_)
      fun t ts h => by cases h
    exact evals_nil fun k => ⟨hw.trans hg hw.used, [], isList_list _ _, .nil⟩
  | cons x xs ih =>
    refine hw.calls_onList hd rfl rfl (fun _ => rfl) (by decide) hc (hw.later hd hf)
      (fun t ht => ⟨hw.later hd (hxs t ht).1, (hxs t ht).2⟩) (fun h => by cases h)
      fun t ts h g E k hg _ hown hA hx hL => ?_
    cases h
    have hd' := hw.trans hd hg
    refine evals_cons (evals_apply rfl (evals_var hA (evals_var hx ((hcall g hd' x (.head _)).mono fun v g' hv => ?_))))
    refine (evals_awaited hown rfl hA hL (isList_list _ _) fun c hc => ih (fun t ht => hxs t (.tail _ ht))
      (hw.trans hd' hv.1) (fun g hg x hx => hcall g hg x (.tail _ hx)) hc).mono fun w g'' hw' => ?_
    obtain ⟨hg'', ys, hys, hr⟩ := hw'
    exact ⟨ys, hys, fun k => ⟨hw.trans hg (hw.trans hv.1 (hw.trans hg'' hw.used)), _, isList_list _ _,
      .cons (hR (hw.trans hg'' hw.used) hv.2) (hr.imp fun _ _ => hR hw.used)⟩⟩

/-- The function is called in a heap with a new closure, which it does not know. -/
theorem World.calls_filter (hcall : ∀ g E c k, D h₀ g → (∀ q ∈ E, V g q.2) → agrees c c = true → ∀ x ∈ xs,
      Calls (g.newClosure E (c.placeFrom k).1).2 f x fun v g' => D g g' ∧ IsBool v (p x) ∧
        ∃ E', Closes g' (.closure g.envs.size (c.placeFrom k).1) c E' ∧ ∀ z, E'.get? z = E.get? z)
    (hc : Own ("filter", 87, filterCode) c) :
    Calls h c f (Awaits D h xs fun v g => D h g ∧ IsList g v (xs.filter p)) := by
  induction xs generalizing h c with
  | nil =>
    refine hw.calls_onList hd rfl rfl (fun _ => rfl) (by decide) hc (hw.later hd hf) (by simp) (fun _ g E hg => ?_)
      fun t ts h => by cases h
    exact evals_nil fun k => ⟨hw.trans hg hw.used, isList_list _ _⟩
  | cons x xs ih =>
    refine hw.calls_onList hd rfl rfl (fun _ => rfl) (by decide) hc (hw.later hd hf)
      (fun t ht => ⟨hw.later hd (hxs t ht).1, (hxs t ht).2⟩) (fun h => by cases h)
      fun t ts h g E k hg hV hown hA hx hL => ?_
    cases h
    have hV' : ∀ q ∈ E.restrict ["x", "filter", "f", "xs", "filter", "f", "xs"], V g q.2 :=
      fun q hq => hV q (mem_restrict.mp hq).1
    refine evals_apply rfl (evals_lambda rfl (fun _ => rfl) fun k' => ?_)
    refine evals_apply rfl (evals_var hA (evals_var hx ((hcall g _ _ k' (hw.trans hd hg) hV' rfl x (.head _)).mono
      fun w g' hw' => ?_)))
    obtain ⟨hg', hb, E', hE', hget⟩ := hw'
    obtain ⟨c, hc, hown⟩ := hown
    have hname : ∀ {z v}, z ∈ ["x", "filter", "f", "xs", "filter", "f", "xs"] → E.get? z = some v → E'.get? z = some v :=
      fun hz hv => by rw [hget, get?_restrict, if_pos hz, hv]
    have hrest := evals_awaited (A := "f") (L := "xs") ⟨c, hc, hname (by decide) hown⟩ rfl (hname (by decide) hA)
      (hname (by decide) hL) (isList_list (h := g') _ _) fun c hc => ih (fun t ht => hxs t (.tail _ ht))
        (hw.trans (hw.trans hd hg) hg') (fun g E c k hg hV hc x hx => hcall g E c k hg hV hc x (.tail _ hx)) hc
    refine calls_bool hE' hb ?_
    cases hp : p x with
    | true =>
      refine evals_cons (evals_var (hname (by decide) hx) ?_)
      exact hrest.mono fun v g'' hv => ⟨_, hv.2, fun k => ⟨hw.trans hg (hw.trans hg' (hw.trans hv.1 hw.used)), by
        rw [filter_cons, hp]
        exact isList_list _ _⟩⟩
    | false =>
      refine hrest.mono fun v g'' hv => ⟨hw.trans hg (hw.trans hg' hv.1), ?_⟩
      rw [filter_cons, hp]
      exact hv.2

theorem World.calls_quantifier {x : String} {b : Bool} (hx : (x, b) = ("any", false) ∨ (x, b) = ("all", true))
    (hcall : ∀ g, D h₀ g → ∀ t ∈ upTo (p · == b) xs, Calls g f t fun v g' => D g g' ∧ IsBool v (p t))
    (hc : Own (x, n, quantifierCode x b) c) :
    Calls h c f (Awaits D h xs fun v g => D h g ∧ IsBool v (if xs.all (p · == b) then b else !b)) := by
  obtain ⟨names, hn, hs, hmem, hq⟩ : ∃ names, (∀ k, ((quantifierRest x b).placeFrom k).1.freeVars = .ok names) ∧
      agrees (quantifierRest x b) (quantifierRest x b) = true ∧
      ((x ∈ names ∧ "f" ∈ names) ∧ [x, "f", "x", "xs"].Nodup) ∧ isQuote (name x) = false := by
    rcases hx with h | h <;> cases h <;> exact ⟨_, fun _ => rfl, rfl, by decide, rfl⟩
  induction xs generalizing h c with
  | nil =>
    refine hw.calls_onList hd rfl hs hn hmem hc (hw.later hd hf) (by simp) (fun _ g E hg => ?_) fun t ts h => by cases h
    exact evals_bool fun v hv => ⟨hw.trans hg hw.used, hv⟩
  | cons t xs ih =>
    refine hw.calls_onList hd rfl hs hn hmem hc (hw.later hd hf) (fun t ht => ⟨hw.later hd (hxs t ht).1, (hxs t ht).2⟩)
      (fun h => by cases h) fun t ts h g E k hg _ hown hA hx hL => ?_
    cases h
    have hd' := hw.trans hd hg
    refine evals_connective (evals_apply rfl (evals_var hA (evals_var hx ((hcall g hd' t (.head _)).mono
      fun v g' hv => ⟨p t, hv.2, ?_⟩))))
    by_cases hp : p t = b
    · rw [if_pos hp]
      refine (evals_awaited hown hq hA hL (isList_list _ _) fun c hc => ih (fun t ht => hxs t (.tail _ ht))
        (hw.trans hd' hv.1) (fun g hg x hx => hcall g hg x ?_) hc).mono fun w g'' hw' =>
          ⟨_, hw'.2, hw.trans hg (hw.trans hv.1 hw'.1), ?_⟩
      · simp [upTo, hp, hx]
      · simp [hp, isBool_bool]
    · rw [if_neg hp]
      exact ⟨hw.trans hg hv.1, by simp [hp, isBool_bool]⟩

end Call

/-! ### Right folds -/

theorem World.evals_foldr {R : Heap → Term → Term → Term → Prop}
    (hR : ∀ {g g' x b v}, D g g' → R g x b v → R g' x b v) (hf : V h₀ f)
    (ha : V h₀ a) (hxs : ∀ t ∈ xs, V h₀ t ∧ isPlaced t = true)
    (hcall : ∀ g, D h₀ g → ∀ x rest, x :: rest <:+ xs → Calls g f x fun c g' => D g g' ∧ ∀ g'' b, D g' g'' →
      Folds R g'' a rest b → V g'' b → Calls g'' c b fun v g3 => D g'' g3 ∧ V g3 v ∧ R g3 x b v)
    (hd : D h₀ h) (hown : Serves env ("foldr", 165, foldrCode)) (hF : env.get? "f" = some f) (hA : env.get? "a" = some a)
    (hL : env.get? "xs" = some l) (hl : IsList h l xs) :
    Evals h env (call (call (call (name "foldr") (name "f")) (name "a")) (name "xs")) fun v g =>
      D h g ∧ V g v ∧ Folds R g a xs v := by
  have hkeep : ∀ {g g'} {ys : List Term} {b}, D g g' → Folds R g a ys b → Folds R g' a ys b := by
    intro g g' ys b hg hb
    induction ys generalizing b with
    | nil => exact hb
    | cons y ys ih =>
      obtain ⟨b', hb', hr⟩ := hb
      exact ⟨b', ih hb', hR hg hr⟩
  induction xs generalizing h env l
  all_goals
    obtain ⟨c, hc, hget⟩ := hown
    refine evals_apply rfl (evals_apply rfl (evals_apply rfl (evals_var hget (evals_var hF ?_))))
    refine hw.calls_first hd rfl rfl rfl (fun _ => rfl) (by decide) hc (hw.later hd hf) fun v g E hg hlater hv hV hown hf' => ?_
    refine evals_var hA (calls_function hv (hw.lambda (values_set hV (hw.later (hw.trans hd hg) ha)) rfl rfl (fun _ => rfl)
      fun v' g' hg' hlater' hv' hV' => evals_var hL ?_))
  case nil =>
    refine calls_nil hv' ((hl.kept hlater.kept).kept hlater'.kept) (evals_var (v := a) ?_ ?_)
    · simp [get?_restrict, get?_set]
    · exact ⟨hw.trans hg hg', hw.later (hw.trans hd (hw.trans hg hg')) ha, rfl⟩
  case cons x xs ih =>
    have hd' := hw.trans hd (hw.trans hg (hw.trans hg' hw.used))
    refine calls_cons hv' (by decide) ((hl.kept hlater.kept).kept hlater'.kept) (hxs x (.head _)).2 fun k => ?_
    obtain ⟨c', hc', hget'⟩ := hown
    refine evals_apply rfl (evals_apply rfl (evals_var (v := f) (by simp [get?_restrict, get?_set, hf'])
      (evals_var (v := x) (by simp [get?_set]) ((hcall _ hd' x xs (suffix_refl _)).mono fun c g1 hc => ?_))))
    refine (ih (fun t ht => hxs t (.tail _ ht)) (fun g hg y rest hr => hcall g hg y rest (hr.trans (suffix_cons _ _)))
      (hw.trans hd' hc.1) ⟨c', hc', ?_⟩ ?_ ?_ (l := .list k xs) ?_ (isList_list _ _)).mono fun b g2 hb => ?_
    · simp [get?_restrict, get?_set, hget']
    · simp [get?_restrict, get?_set, hf']
    · simp [get?_restrict, get?_set]
    · simp [get?_set]
    · exact (hc.2 g2 b hb.1 hb.2.2 hb.2.1).mono fun v g3 hv => ⟨hw.trans hg (hw.trans hg' (hw.trans hw.used
        (hw.trans hc.1 (hw.trans hb.1 hv.1)))), hv.2.1, b, hkeep hv.1 hb.2.2, hv.2.2⟩

/-! ### Functions that call nothing else -/

theorem World.calls_concat {v : Term} {E : Env} {ys : List Term} (hd : D h₀ h) (hv : Closes h v concatRest E)
    (hown : Serves E ("concat", 117, concatCode)) (ha : E.get? "xs" = some a) (hys : IsList h a ys) (hl : IsList h l xs)
    (hV : ∀ t ∈ ys ++ xs, V h t ∧ isPlaced t = true) : Calls h v l fun w g => D h g ∧ IsList g w (ys ++ xs) := by
  induction xs generalizing h v E a ys l with
  | nil => exact calls_nil hv hl (evals_var ha ⟨hw.refl h, by rwa [append_nil]⟩)
  | cons y xs ih =>
    have hd' : D h h.used.used := hw.trans hw.used hw.used
    have hlater : h.Later h.used.used := later_next.trans later_next
    refine calls_cons hv (by decide) hl (hV y (by simp)).2 fun k => ?_
    obtain ⟨c, hc, hget⟩ := hown
    refine evals_apply rfl (evals_apply rfl (evals_var (v := c) (by simpa [get?_set] using hget) (evals_append
      (evals_var (v := a) (by simpa [get?_set] using ha) ⟨ys, hys.kept later_next.kept,
        evals_var (v := y) (by simp [get?_set]) fun k' => ?_⟩))))
    have hmore : ∀ t ∈ ys ++ [y] ++ xs, V h t ∧ isPlaced t = true := fun t ht => hV t (by simpa using ht)
    refine hw.calls_first (hw.trans hd hd') rfl rfl rfl (fun _ => rfl) (by decide) hc (hw.list fun t ht => hw.later hd'
      (hmore t (mem_append_left _ ht)).1) fun v' g E' hg _ hv' _ hown' ha' => ?_
    refine evals_var (v := .list k xs) (by simp [get?_set]) ?_
    refine (ih (hw.trans hd (hw.trans hd' hg)) hv' hown' ha' (isList_list _ _) (isList_list _ _) fun t ht =>
      ⟨hw.later (hw.trans hd' hg) (hmore t ht).1, (hmore t ht).2⟩).mono fun w g' hw' => ?_
    exact ⟨hw.trans hd' (hw.trans hg hw'.1), by simpa using hw'.2⟩

theorem World.calls_take (hd : D h₀ h) (hc : Own ("take", 187, takeCode) c)
    (hn : a.int? = some (n : Int)) (ha : V h a) (hxs : ∀ t ∈ xs, V h t ∧ isPlaced t = true) :
    Calls h c a (Awaits D h xs fun w g => D h g ∧ IsList g w (xs.take n)) := by
  induction xs generalizing h c a n with
  | nil =>
    obtain ⟨E, hE, -, hV⟩ := hw.own hd hc
    refine calls_number hE hn ?_
    split
    · refine hw.lambda hV rfl rfl (fun _ => rfl) fun v g hg hlater hv _ => ⟨hg, hlater, fun l _ => ?_⟩
      exact calls_function hv (evals_nil fun k => ⟨hw.trans hg hw.used, by simpa using isList_list _ _⟩)
    · refine hw.lambda (values_set hV ha) rfl rfl (fun _ => rfl) fun v g hg hlater hv _ => ⟨hg, hlater, fun l hl => ?_⟩
      exact calls_nil hv hl (evals_nil fun k => ⟨hw.trans hg hw.used, by simpa using isList_list _ _⟩)
  | cons x xs ih =>
    obtain ⟨E, hE, ⟨c', hc', hget⟩, hV⟩ := hw.own hd hc
    refine calls_number hE hn ?_
    split
    · rename_i h0
      cases Int.ofNat_eq_zero.mp h0
      refine hw.lambda hV rfl rfl (fun _ => rfl) fun v g hg hlater hv _ => ⟨hg, hlater, fun l _ => ?_⟩
      exact calls_function hv (evals_nil fun k => ⟨hw.trans hg hw.used, isList_list _ _⟩)
    · rename_i h0
      obtain ⟨n, rfl⟩ := Nat.exists_eq_succ_of_ne_zero (Int.ofNat_eq_zero.not.mp h0)
      refine hw.lambda (values_set hV ha) rfl rfl (fun _ => rfl) fun v g hg hlater hv _ => ⟨hg, hlater, fun l hl => ?_⟩
      have hd' := hw.trans hg (hw.trans hw.used hw.used)
      refine calls_cons hv (by decide) hl (hxs x (.head _)).2 fun j => ?_
      refine evals_cons (evals_var (v := x) (by simp [get?_set]) (evals_apply rfl (evals_apply rfl (evals_var (v := c')
        (by simp [get?_restrict, get?_set, hget]) (evals_sub (evals_var (v := a)
          (by simp [get?_restrict, get?_set]) ⟨_, hn, evals_int fun k => ⟨1, rfl, fun k => ?_⟩⟩))))))
      refine (ih (n := n) (hw.trans hd hd') hc' (by simp [Term.int?]) hw.int (fun t ht =>
        ⟨hw.later hd' (hxs t (.tail _ ht)).1, (hxs t (.tail _ ht)).2⟩)).mono fun w g' hw' => ?_
      refine evals_var (v := .list j xs) (by simp [get?_set]) ((hw'.2.2 _ (isList_list _ _)).mono fun u g'' hu => ?_)
      exact ⟨_, hu.2, fun k => ⟨hw.trans hd' (hw.trans hu.1 hw.used), isList_list _ _⟩⟩

theorem World.calls_range (hd : D h₀ h) (hc : Own ("range", 151, rangeCode) c) (hn : a.int? = some (n : Int)) :
    Calls h c a fun v g => D h g ∧ ∃ ys, IsList g v ys ∧ ys.map int? = (List.range n).map fun i : Nat => some (i : Int) := by
  induction n generalizing h c a with
  | zero =>
    obtain ⟨E, hE, -⟩ := hw.own hd hc
    exact calls_number hE hn (evals_nil fun k => ⟨hw.used, [], isList_list _ _, rfl⟩)
  | succ n ih =>
    obtain ⟨E, hE, ⟨c', hc', hget⟩, -⟩ := hw.own hd hc
    refine calls_number hE hn ?_
    rw [if_neg (by omega)]
    have hi : (E.set "i" a).get? "i" = some a := by simp [get?_set]
    have hless : ((n + 1 : Nat) : Int) - 1 = n := by omega
    refine evals_append (evals_apply rfl (evals_var (v := c') (by simp [get?_set, hget]) (evals_sub (evals_var hi
      ⟨_, hn, evals_int fun k => ⟨1, rfl, fun k => ?_⟩⟩))))
    refine (ih (hw.trans hd hw.used) hc' (by rw [hless]; rfl)).mono fun w g hw' => ?_
    obtain ⟨hg, ys, hys, hmap⟩ := hw'
    refine ⟨ys, hys, evals_sub (evals_var hi ⟨_, hn, evals_int fun k => ⟨1, rfl, fun k => fun k' => ?_⟩⟩)⟩
    refine ⟨hw.trans hw.used (hw.trans hg (hw.trans hw.used hw.used)), _, isList_list _ _, ?_⟩
    rw [range_succ, map_append, map_append, hmap, hless]
    rfl

end Functions

end Scrap.Prelude
