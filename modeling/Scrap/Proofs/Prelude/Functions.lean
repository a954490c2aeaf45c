import Scrap.Proofs.Prelude.Lists

/-! # The functions on lists and what they call

What a function that is given to them does to the heap leaves the closures of the prelude as they are, and a closure that
it does not know as well. -/

namespace Scrap.Prelude

open Term Eval List Dict

variable {xs : List Term} {h : Heap} {l : Term}

/-! ### Heaps during calls -/

/-- A value of the heap. -/
def Sound (h : Heap) (t : Term) : Prop := t.Leaves (Genuine h.envs.size)

/-- The heaps that a heap becomes when objects are made and when calls in `C` return. -/
inductive During (C : Term → Term → Prop) (h : Heap) : Heap → Prop
  | start : During C h h
  | used {g : Heap} : During C h g → During C h g.used
  | closure {g : Heap} {E : Env} {c : Term} : During C h g → (∀ p ∈ E, Sound g p.2) → Sound g c →
      During C h (g.newClosure E c).2
  | call {f x v : Term} {n : Nat} {s t : Session} : During C h s.heap → C f x → Sound s.heap f → Sound s.heap x →
      outcome (applied .standard (eval n) f x) s = (.ok v, t) → During C h t.heap

/-- The call is in `C`, and it returns in every heap that such calls lead to. -/
def Returns (C : Term → Term → Prop) (h : Heap) (f x : Term) (post : Term → Heap → Prop) : Prop :=
  C f x ∧ ∀ g, During C h g → Calls g f x post

/-- The closures of the prelude find their functions, and all values are sound. -/
structure Whole (h : Heap) : Prop where
  intact : Intact h
  genuine : Sealed Genuine 19 h

section During
variable {C : Term → Term → Prop} {h g g' : Heap} {f x v : Term} {n : Nat} {s t : Session} {post : Term → Heap → Prop}
  {E : Env} {c : Term}

theorem Intact.kept (hh : Intact h) (hg : h.Kept g) (hs : Sealed Genuine 19 g) : Intact g where
  size := hs.size
  names e F hF := by
    obtain ⟨c, hc, hget⟩ := hh.names e F hF
    rcases hg.names e (Nat.lt_of_lt_of_le (lt_of_role hF).2 hh.size) F.1 with h | ⟨code, h⟩
    · exact ⟨c, hc, h.trans hget⟩
    · -- the name stands for the closure itself, which has its code
      have hcode := (leaves_closure.mp (hs.holds.envs e _ (mem_of_get? h))).1.2 (codeOf F) (by rw [codes, hF]; rfl)
      exact ⟨_, ⟨e, hF, rfl⟩, hcode ▸ h⟩

theorem Whole.call (hw : Whole s.heap) (hf : Sound s.heap f) (hx : Sound s.heap x)
    (ho : outcome (applied .standard (eval n) f x) s = (.ok v, t)) : Whole t.heap ∧ Sound t.heap v := by
  obtain ⟨-, hs, hv⟩ := guards_applied admits_genuine n hf hx s t v (Nat.le_refl _) hw.genuine ho
  have hkept := (keeps_applied n f x s).heap
  rw [ho] at hkept
  exact ⟨⟨hw.intact.kept hkept hs, hs⟩, hv⟩

theorem During.kept (hd : During C h g) : h.Kept g := by
  induction hd with
  | start => exact .refl h
  | used _ ih => exact ih.trans later_next.kept
  | closure _ _ _ ih => exact ih.trans (later_newClosure _ _).kept
  | @call f x v n s t _ _ _ _ ho ih =>
    have hkept := (keeps_applied n f x s).heap
    rw [ho] at hkept
    exact ih.trans hkept

theorem During.trans (hd : During C h g) (hg : During C g g') : During C h g' := by
  induction hg with
  | start => exact hd
  | used _ ih => exact ih.used
  | closure _ hE hc ih => exact ih.closure hE hc
  | call _ hC hf hx ho ih => exact ih.call hC hf hx ho

theorem During.whole (hd : During C h g) (hw : Whole h) : Whole g := by
  induction hd with
  | start => exact hw
  | used _ ih => exact ⟨ih.intact.kept later_next.kept (ih.genuine.next (Nat.le_succ _)), ih.genuine.next (Nat.le_succ _)⟩
  | @closure g E c _ hE _ ih =>
    have hs := ih.genuine.newClosure admits_genuine c hE
    exact ⟨ih.intact.kept (later_newClosure _ _).kept hs, hs⟩
  | call _ _ hf hx ho ih => exact (ih.call hf hx ho).1

theorem Sound.during (hv : Sound h v) (hd : During C h g) : Sound g v := hv.mono fun _ => admits_genuine.mono hd.kept.size

theorem world_during (hw : Whole h) : World Sound h (During C) where
  int := leaves_atom rfl rfl
  list := leaves_list.mpr
  later hd hv := hv.during hd
  refl _ := .start
  trans := .trans
  used := .used .start
  closure hE hc := .closure .start hE ((leaves_of_agrees _ _ hc).2 _)
  intact hd := (hd.whole hw).intact
  envs hd := (hd.whole hw).genuine.holds.envs

theorem calls_during (hw : Whole g) (hC : C f x) (hf : Sound g f) (hx : Sound g x)
    (hc : Calls g f x post) : Calls g f x fun v g' => During C g g' ∧ Sound g' v ∧ post v g' := fun s hs => by
  obtain ⟨N, v, t, ho, hp⟩ := hc s hs
  subst hs
  exact ⟨N, v, t, ho, .call .start hC hf hx (ho N (Nat.le_refl N)), (hw.call hf hx (ho N (Nat.le_refl N))).2, hp⟩

/-! ### Closures that a function does not know -/

/-- Not the closure with this number. -/
def Other (e : Nat) (_ : Nat) (u : Term) : Prop := ∀ c, u ≠ .closure e c

theorem admits_other (e : Nat) : Admits (Other e) (e + 1) where
  mono _ hu := hu
  made he _ c h := by
    cases h
    omega
  link c h := by cases h

theorem Sound.other (hv : Sound h v) (k : Nat) : v.Leaves (Other h.envs.size k) := hv.mono fun u hu c h => by
  subst h
  exact Nat.lt_irrefl _ hu.1

/-- A function that is called when a closure is new gives no names to it. -/
theorem Whole.call_other (hw : Whole h) (hE : ∀ q ∈ E, Sound h q.2) (hf : Sound h f) (hx : Sound h x)
    (hs : s.heap = (h.newClosure E c).2) (ho : outcome (applied .standard (eval n) f x) s = (.ok v, t)) (z : String) :
    (t.heap.envOf h.envs.size).get? z = E.get? z := by
  have hsize : s.heap.envs.size = h.envs.size + 1 := by rw [hs]; exact Array.size_push _
  have hstart : Sealed (Other h.envs.size) (h.envs.size + 1) s.heap := by
    refine ⟨⟨fun e p hp => ?_, fun u hu => ?_⟩, Nat.le_of_eq hsize.symm, hs ▸ hw.genuine.untied⟩
    · rw [hs] at hp
      exact Sound.other ((Heap.mem_envOf_push hp).elim (hE p) (hw.genuine.holds.envs e p)) _
    · rw [hs]
      cases u with
      | link i => exact Sound.other (hw.genuine.holds.resolves _ (leaves_link.mpr trivial)) _
      | _ => exact hu
  obtain ⟨-, hend, -⟩ := guards_applied (admits_other h.envs.size) n (hf.other 0) (hx.other 0) s t v (Nat.zero_le _) hstart ho
  have hkept := (keeps_applied n f x s).heap
  rw [ho] at hkept
  have hnew : s.heap.envOf h.envs.size = E := by rw [hs]; exact Heap.envOf_push.trans (if_pos rfl)
  rcases hkept.names h.envs.size (by omega) z with hsame | ⟨code, hnamed⟩
  · rw [hsame, hnew]
  · exact ((leaves_closure.mp (hend.holds.envs _ _ (mem_of_get? hnamed))).1 code rfl).elim

/-- The function is called when a closure is new. -/
theorem Whole.calls_other (hw : Whole g) {k : Nat}
    (hE : ∀ q ∈ E, Sound g q.2) (hc : agrees c c = true) (hC : C f x) (hf : Sound g f) (hx : Sound g x)
    (hcall : Calls (g.newClosure E (c.placeFrom k).1).2 f x post) :
    Calls (g.newClosure E (c.placeFrom k).1).2 f x fun v g' => During C g g' ∧ post v g' ∧
      ∃ E', Closes g' (.closure g.envs.size (c.placeFrom k).1) c E' ∧ ∀ z, E'.get? z = E.get? z := fun s hs => by
  have hnew : During C g (g.newClosure E (c.placeFrom k).1).2 := (world_during hw).closure hE hc
  obtain ⟨N, v, t, ho, hd, -, hp⟩ := calls_during (hnew.whole hw) hC (hf.during hnew) (hx.during hnew) hcall s hs
  have hsize : g.envs.size < t.heap.envs.size := Nat.lt_of_lt_of_le (by
    show _ < (g.envs.push E).size
    rw [Array.size_push]
    exact Nat.lt_succ_self _) hd.kept.size
  exact ⟨N, v, t, ho, hnew.trans hd, hp, _, ⟨_, k, rfl, hsize, rfl⟩, hw.call_other hE hf hx hs (ho N (Nat.le_refl N))⟩

end During

/-! ### Functions -/

theorem mem_of_upTo {p : Term → Bool} {x : Term} (hx : x ∈ upTo p xs) : x ∈ xs := by
  induction xs with
  | nil => exact hx
  | cons y ys ih =>
    rcases mem_cons.mp hx with rfl | hx
    · exact .head _
    · split at hx
      · exact .tail _ (ih hx)
      · cases hx

theorem isList_sound (hl : IsList h l xs) (hxs : ∀ x ∈ xs, Sound h x) : Sound h l := by
  obtain ⟨⟨i, hi⟩, -⟩ := hl
  cases l with
  | link j => exact leaves_link.mpr trivial
  | list j ys =>
    cases (show Term.list j ys = _ from hi)
    exact leaves_list.mpr hxs
  | _ => cases hi

/-- In each heap that comes up after booting: the functions of the prelude on lists return what they should, if the
functions that they are given return whenever they are called on the items concerned. -/
theorem functions_return {env₀ env : Env} {s₀ : Session} {h : Heap} {C : Term → Term → Prop} {l : Term} {xs : List Term}
    (hboot : outcome (Boot.env Boot.builtins.1) { heap := Boot.builtins.2 } = (.ok env₀, s₀))
    (hh : During (fun _ _ => True) s₀.heap h) (henv : ∀ F ∈ functions, env.get? F.1 = env₀.get? F.1)
    (hL : env.get? "xs" = some l) (hl : IsList h l xs) (hxs : ∀ x ∈ xs, Sound h x ∧ isPlaced x = true) :
    (∀ f, env.get? "f" = some f → Sound h f →
      (∀ R : Heap → Term → Term → Prop, (∀ g g' x v, During C g g' → R g x v → R g' x v) →
        (∀ x ∈ xs, Returns C h f x fun v g => R g x v) →
        Evals h env (call (call (name "map") (name "f")) (name "xs")) fun v g =>
          During C h g ∧ ∃ ys, IsList g v ys ∧ Forall₂ (R g) xs ys) ∧
      (∀ p : Term → Bool, (∀ x ∈ xs, Returns C h f x fun v _ => IsBool v (p x)) →
        Evals h env (call (call (name "filter") (name "f")) (name "xs")) fun v g =>
          During C h g ∧ IsList g v (xs.filter p)) ∧
      (∀ p : Term → Bool, (∀ x ∈ upTo p xs, Returns C h f x fun v _ => IsBool v (p x)) →
        Evals h env (call (call (name "all") (name "f")) (name "xs")) fun v g => During C h g ∧ IsBool v (xs.all p)) ∧
      (∀ p : Term → Bool, (∀ x ∈ upTo (fun x => !p x) xs, Returns C h f x fun v _ => IsBool v (p x)) →
        Evals h env (call (call (name "any") (name "f")) (name "xs")) fun v g => During C h g ∧ IsBool v (xs.any p)) ∧
      (∀ a (R : Heap → Term → Term → Term → Prop), env.get? "a" = some a → Sound h a →
        (∀ g g' x b v, During C g g' → R g x b v → R g' x b v) →
        (∀ x rest, x :: rest <:+ xs → Returns C h f x fun c g => ∀ g' b, During C g g' → Sound g' b →
          Folds R g' a rest b → C c b ∧ Calls g' c b fun v g'' => R g'' x b v) →
        Evals h env (call (call (call (name "foldr") (name "f")) (name "a")) (name "xs")) fun v g =>
          During C h g ∧ Folds R g a xs v)) ∧
    (∀ k ys, env.get? "ys" = some k → IsList h k ys → (∀ y ∈ ys, Sound h y ∧ isPlaced y = true) →
      Evals h env (call (call (name "concat") (name "ys")) (name "xs")) fun v g => During C h g ∧ IsList g v (ys ++ xs)) ∧
    ∀ i (n : Nat), env.get? "n" = some i → i.int? = some (n : Int) →
      (Evals h env (call (call (name "take") (name "n")) (name "xs")) fun v g =>
        During C h g ∧ IsList g v (xs.take n)) ∧
      Evals h env (call (name "range") (name "n")) fun v g => During C h g ∧
        ∃ ys, IsList g v ys ∧ ys.map int? = (List.range n).map fun i : Nat => some (i : Int) := by
  obtain ⟨_, _, ho, hb⟩ := boots
  cases hboot.symm.trans ho
  have hw : Whole h := hh.whole ⟨hb.intact, hb.genuine⟩
  have hserves : ∀ F ∈ functions, Serves env F := fun F hF => by
    obtain ⟨c, hc, hget⟩ := hb.names F hF
    exact ⟨c, hc, (henv F hF).trans hget⟩
  have hworld := world_during (C := C) hw
  have hcall : ∀ {f x post} {g : Heap}, Sound h f → x ∈ xs → Returns C h f x post → During C h g →
      Calls g f x fun v g' => During C g g' ∧ Sound g' v ∧ post v g' := fun hf hx hr hg =>
    calls_during (hg.whole hw) hr.1 (hf.during hg) ((hxs _ hx).1.during hg) (hr.2 _ hg)
  refine ⟨fun f hF hf => ⟨fun R hR hr => ?_, fun p hr => ?_, fun p hr => ?_, fun p hr => ?_, fun a R hA ha hR hr => ?_⟩,
    fun k ys hK hk hys => ?_, fun i n hN hn => ⟨?_, ?_⟩⟩
  · exact evals_awaited (hserves _ (by simp [functions])) rfl hF hL hl fun c hc => hworld.calls_map (R := R) hf hxs .start
      (hR _ _ _ _) (fun g hg x hx => (hcall hf hx (hr x hx) hg).mono fun v g' hv => ⟨hv.1, hv.2.2⟩) hc
  · refine evals_awaited (hserves _ (by simp [functions])) rfl hF hL hl fun c hc => hworld.calls_filter hf hxs .start ?_ hc
    exact fun g E c k hg hE hs x hx => (hg.whole hw).calls_other hE hs (hr x hx).1 (hf.during hg) ((hxs x hx).1.during hg)
      ((hr x hx).2 _ (hg.trans (hworld.closure hE hs)))
  · have hall := evals_awaited (hserves ("all", 209, quantifierCode "all" true) (by simp [functions])) rfl hF hL hl
      fun c hc => hworld.calls_quantifier hf hxs .start (.inr rfl) (p := p) (fun g hg x hx => by
        simp only [beq_true] at hx
        exact (hcall hf (mem_of_upTo hx) (hr x hx) hg).mono fun v g' hv => ⟨hv.1, hv.2.2⟩) hc
    refine hall.mono fun v g hv => ⟨hv.1, ?_⟩
    simp only [beq_true] at hv
    cases h : xs.all p <;> exact (h ▸ hv).2
  · have hany := evals_awaited (hserves ("any", 228, quantifierCode "any" false) (by simp [functions])) rfl hF hL hl
      fun c hc => hworld.calls_quantifier hf hxs .start (.inl rfl) (p := p) (fun g hg x hx => by
        simp only [beq_false] at hx
        exact (hcall hf (mem_of_upTo hx) (hr x hx) hg).mono fun v g' hv => ⟨hv.1, hv.2.2⟩) hc
    refine hany.mono fun v g hv => ⟨hv.1, ?_⟩
    simp only [beq_false, any_eq_not_all_not] at hv ⊢
    cases h : xs.all fun x => !p x <;> exact (h ▸ hv).2
  · refine (hworld.evals_foldr (R := R) (hR _ _ _ _ _) hf ha hxs (fun g hg x rest hsuffix => ?_) .start
      (hserves _ (by simp [functions])) hF hA hL hl).mono fun v g hv => ⟨hv.1, hv.2.2⟩
    refine (hcall hf (hsuffix.subset (.head _)) (hr x rest hsuffix) hg).mono fun c g₁ hc =>
      ⟨hc.1, fun g₂ b hd hfolds hb => ?_⟩
    obtain ⟨hC, hcb⟩ := hc.2.2 g₂ b hd hb hfolds
    exact calls_during ((hg.trans (hc.1.trans hd)).whole hw) hC (hc.2.1.during hd) hb hcb
  · obtain ⟨c, hc, hget⟩ := hserves ("concat", 117, concatCode) (by simp [functions])
    refine evals_apply rfl (evals_apply rfl (evals_var hget (evals_var hK (hworld.calls_first .start rfl rfl rfl
      (fun _ => rfl) (by decide) hc (isList_sound hk fun y hy => (hys y hy).1) fun v g E hg hlater hv _ hown hxs' => ?_))))
    refine evals_var hL ((hworld.calls_concat hg hv hown hxs' (hk.kept hlater.kept) (hl.kept hlater.kept)
      fun t ht => ?_).mono fun w g' hw' => ⟨hg.trans hw'.1, hw'.2⟩)
    obtain ⟨ht, hp⟩ := (mem_append.mp ht).elim (hys t) (hxs t)
    exact ⟨ht.during hg, hp⟩
  · exact evals_awaited (hserves ("take", 187, takeCode) (by simp [functions])) rfl hN hL hl fun c hc =>
      hworld.calls_take .start hc hn (by cases i <;> first | exact leaves_atom rfl rfl | cases hn) hxs
  · obtain ⟨c, hc, hget⟩ := hserves ("range", 151, rangeCode) (by simp [functions])
    exact evals_apply rfl (evals_var hget (evals_var hN (hworld.calls_range .start hc hn)))

def twoItems : List Term := [.bool true, .bool false]

def withClosure (h : Heap) (c : Term) : Heap := (h.newClosure [] (c.placeFrom 1).1).2

/-- The names `f` for that closure, `xs` for the two items, and `n` for 1. -/
def withNames (env : Env) (h : Heap) (c : Term) : Env :=
  ((env.set "f" (.closure h.envs.size (c.placeFrom 1).1)).set "xs" (.list 1 twoItems)).set "n" (.int 0 1)

theorem twoItems_returned : ∃ env₀ s₀, outcome (Boot.env Boot.builtins.1) { heap := Boot.builtins.2 } = (.ok env₀, s₀) ∧
    let returns c := Evals (withClosure s₀.heap c) (withNames (env₀.set "a" (.int 0 1)) s₀.heap c)
    let self := fn "x" (name "x")
    let f x := call (call (name x) (name "f")) (name "xs")
    (returns self (f "map") fun v g => ∃ ys, IsList g v ys ∧ Forall₂ (fun x y => y = x) twoItems ys) ∧
    (returns self (f "filter") fun v g => IsList g v [.bool true]) ∧
    (returns self (f "all") fun v _ => IsBool v false) ∧ (returns self (f "any") fun v _ => IsBool v true) ∧
    (returns self (call (call (name "take") (name "n")) (name "xs")) fun v g => IsList g v [.bool true]) ∧
    (returns self (call (name "range") (name "n")) fun v g => ∃ ys, IsList g v ys ∧ ys.map int? = [some 0]) ∧
    returns (fn "x" (fn "y" (name "y"))) (call (call (call (name "foldr") (name "f")) (name "a")) (name "xs")) fun v _ =>
      v = .int 0 1 := by
  obtain ⟨env₀, s₀, hboot, hb⟩ := boots
  have hlt c : s₀.heap.envs.size < (withClosure s₀.heap c).envs.size := by simp [withClosure, Heap.newClosure]
  have hitems {h : Heap} {x : Term} (hx : x ∈ twoItems) : Sound h x ∧ isPlaced x = true := by
    have hhole {i} : Sound h (.hole i) := leaves_atom rfl rfl
    rcases mem_pair.mp hx with rfl | rfl <;> exact ⟨leaves_of_parts rfl (forall_mem_singleton.mpr hhole), rfl⟩
  have hreturn {c : Term} (hc : ∀ h, Sound h (c.placeFrom 1).1) :=
    let h := functions_return (C := fun _ _ => True) hboot (.closure .start (fun _ hp => by cases hp) (hc _))
      (show ∀ F ∈ functions, (withNames (env₀.set "a" (.int 0 1)) s₀.heap c).get? F.1 = env₀.get? F.1 by
        simp [functions, withNames, get?_set])
      (by simp [withNames, get?_set]) (isList_list 1 twoItems) fun _ => hitems
    And.intro (h.1 _ (by simp [withNames, get?_set]) (leaves_closure.mpr
      ⟨admits_genuine.made hb.intact.size (hlt c), hc _⟩)) (h.2.2 (.int 0 1) 1 (by simp [withNames, get?_set]) rfl)
  have hself {x : Term} {post : Term → Prop} (hp : post x) : Returns (fun _ _ => True)
      (withClosure s₀.heap (fn "x" (name "x"))) (.closure s₀.heap.envs.size ((fn "x" (name "x")).placeFrom 1).1) x
      fun v _ => post v :=
    ⟨trivial, fun g hg => calls_function ⟨_, 1, rfl, Nat.lt_of_lt_of_le (hlt _) hg.kept.size, rfl⟩
      (evals_var (by simp [get?_set]) hp)⟩
  have hbool {x : Term} (hx : x ∈ twoItems) : IsBool x (x.same (.bool true)) := by
    rcases mem_pair.mp hx with rfl | rfl <;> exact ⟨_, _, rfl⟩
  obtain ⟨⟨hmap, hfilter, hall, hany, -⟩, htake, hrange⟩ := hreturn fun _ => (leaves_of_agrees (fn "x" (name "x"))
    (fn "x" (name "x")) rfl).2 1
  obtain ⟨⟨-, -, -, -, hfoldr⟩, -⟩ := hreturn fun _ => (leaves_of_agrees (fn "x" (fn "y" (name "y")))
    (fn "x" (fn "y" (name "y"))) rfl).2 1
  refine ⟨env₀, s₀, hboot, (hmap (fun _ x y => y = x) (fun _ _ _ _ _ h => h) fun x _ => hself rfl).mono fun _ _ h => h.2,
    (hfilter _ fun x hx => hself (hbool hx)).mono fun _ _ h => h.2,
    (hall _ fun x hx => hself (hbool (mem_of_upTo hx))).mono fun _ _ h => h.2,
    (hany _ fun x hx => hself (hbool (mem_of_upTo hx))).mono fun _ _ h => h.2, htake.mono fun _ _ h => h.2,
    hrange.mono fun _ _ h => h.2, (hfoldr (.int 0 1) (fun _ _ b v => v = b) (by simp [withNames, get?_set])
      (leaves_atom rfl rfl) (fun _ _ _ _ _ _ h => h) fun x rest _ => ⟨trivial, fun g hg => ?_⟩).mono ?_⟩
  · refine calls_function ⟨_, 1, rfl, Nat.lt_of_lt_of_le (hlt _) hg.kept.size, rfl⟩ (evals_closure rfl (fun _ => rfl)
      fun v g' _ hv g'' b hd _ _ => ⟨trivial, ?_⟩)
    obtain ⟨e, k, rfl, he, -⟩ := hv
    exact calls_function ⟨e, k, rfl, Nat.lt_of_lt_of_le he hd.kept.size, rfl⟩ (evals_var (by simp [get?_set]) rfl)
  · rintro v g ⟨-, b, ⟨c, rfl, rfl⟩, rfl⟩
    rfl

end Scrap.Prelude
