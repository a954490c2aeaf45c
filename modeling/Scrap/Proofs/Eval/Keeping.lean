import Scrap.Proofs.Eval.Mirrors
import Scrap.Proofs.Wire.Frames

/-! # What evaluation leaves as it was

A definition gives its name to the closure that its right-hand side came to; a name in an old environment changes in no
other way. -/

namespace Scrap

/-! ### Heaps -/

namespace Heap

variable {g : Heap}

/-- Everything in the first heap is in the second: links stand for what they stood for, and a name in the environment of
a closure has changed only if it now stands for the closure itself. -/
structure Kept (g g' : Heap) : Prop where
  next : g.next ≤ g'.next
  size : g.envs.size ≤ g'.envs.size
  names : ∀ e, e < g.envs.size → ∀ x,
    (g'.envOf e).get? x = (g.envOf e).get? x ∨ ∃ code, (g'.envOf e).get? x = some (.closure e code)
  knots : ∀ i, i < g.next → g'.resolve (.link i) = g.resolve (.link i)

theorem Later.kept {g' : Heap} (h : Later g g') : Kept g g' where
  next := h.next
  size := h.size
  names e he x := .inl (by rw [h.envs e he])
  knots := h.knots

theorem Kept.refl (g : Heap) : Kept g g := (Later.refl g).kept

theorem Kept.trans {g1 g2 : Heap} (h1 : Kept g g1) (h2 : Kept g1 g2) : Kept g g2 where
  next := Nat.le_trans h1.next h2.next
  size := Nat.le_trans h1.size h2.size
  names e he x := by
    rcases h2.names e (Nat.lt_of_lt_of_le he h1.size) x with h | h
    · rw [h]
      exact h1.names e he x
    · exact .inr h
  knots i hi := (h2.knots i (Nat.lt_of_lt_of_le hi h1.next)).trans (h1.knots i hi)

theorem kept_next (g : Heap) {n : Nat} (h : g.next ≤ n) : Kept g { g with next := n } :=
  ⟨h, Nat.le_refl _, fun _ _ _ => .inl rfl, fun _ _ => rfl⟩

theorem kept_newClosure (g : Heap) (env : Env) (code : Term) : Kept g (g.newClosure env code).2 where
  next := Nat.le_refl _
  size := by
    show g.envs.size ≤ (g.envs.push env).size
    rw [Array.size_push]
    exact Nat.le_succ _
  names e he x := by
    have : (g.newClosure env code).2.envOf e = _ := envOf_push
    rw [this, if_neg (Nat.ne_of_lt he)]
    exact .inl rfl
  knots _ _ := rfl

theorem kept_bind (g : Heap) (e : Nat) (x : String) (code : Term) : Kept g (g.bind e x (.closure e code)) where
  next := Nat.le_refl _
  size := Nat.le_of_eq (size_setEnv g e _).symm
  names e' he' y := by
    by_cases he : e < g.envs.size
    · rw [bind, envOf_setEnv he]
      split
      · subst e'
        rw [Dict.get?_set]
        split
        · exact .inr ⟨code, rfl⟩
        · exact .inl rfl
      · exact .inl rfl
    · rw [bind, setEnv, Array.setIfInBounds_eq_of_size_le (Nat.not_lt.mp he)]
      exact .inl rfl
  knots _ _ := rfl

end Heap

/-! ### Numbering -/

namespace Term

mutual

theorem le_placeFrom : ∀ (t : Term) (n : Nat), n ≤ (t.placeFrom n).2
  | .int _ _, n | .truth _ _, n | .float _ _, n | .complex _ _, n | .string _ _, n | .bytes _ _, n | .var _ _, n
  | .hole _, n | .spread _ _, n | .relocation _ _ _, n | .native _ _, n => Nat.le_succ n
  | .binop _ _ l r, n | .function _ l r, n | .apply _ l r, n | .scope _ l r, n | .assert _ l r, n | .matchCase _ l r, n
  | .access _ l r, n => Nat.le_trans (Nat.le_of_succ_le (le_placeFrom l (n + 1))) (le_placeFrom r _)
  | .assign _ _ v, n | .variant _ _ v, n => Nat.le_of_succ_le (le_placeFrom v (n + 1))
  | .list _ xs, n => Nat.le_of_succ_le (le_placeAll xs (n + 1))
  | .record _ fs, n | .environment _ fs, n => Nat.le_of_succ_le (le_placeFields fs (n + 1))
  | .matchFunction _ cs, n => Nat.le_of_succ_le (le_placeCases cs (n + 1))
  | .closure _ code, n => le_placeFrom code n
  | .link _, n => Nat.le_refl n

theorem le_placeAll : ∀ (ts : List Term) (n : Nat), n ≤ (placeAll n ts).2
  | [], n => Nat.le_refl n
  | t :: ts, n => Nat.le_trans (le_placeFrom t n) (le_placeAll ts _)

theorem le_placeFields : ∀ (fs : List (String × Term)) (n : Nat), n ≤ (placeFields n fs).2
  | [], n => Nat.le_refl n
  | (_, t) :: fs, n => Nat.le_trans (le_placeFrom t n) (le_placeFields fs _)

theorem le_placeCases : ∀ (cs : List (Term × Term)) (n : Nat), n ≤ (placeCases n cs).2
  | [], n => Nat.le_refl n
  | (p, b) :: cs, n =>
    Nat.le_trans (Nat.le_trans (le_placeFrom p n) (le_placeFrom b _)) (le_placeCases cs _)

end

end Term

theorem Heap.kept_place (g : Heap) (t : Term) : Heap.Kept g (g.place t).2 := g.kept_next (t.le_placeFrom g.next)

/-! ### Evaluation -/

/-- What is in the heap is kept, and no log is opened. -/
structure Session.Kept (s s' : Session) : Prop where
  heap : s.heap.Kept s'.heap
  log : s.log = none → s'.log = none

namespace Eval

open Session

variable {α β : Type} {m : EvalM α} {f : α → EvalM β}

/-- A computation that keeps every session, whether it returns or fails. -/
def Keeps {α : Type} (m : EvalM α) : Prop := ∀ s : Session, Session.Kept s (outcome m s).2

theorem Keeps.of_heap (h : ∀ s, (outcome m s).2.heap = s.heap)
    (hlog : ∀ s, (outcome m s).2.log = s.log) : Keeps m := fun s =>
  ⟨by rw [h s]; exact .refl _, fun hs => by rw [hlog s, hs]⟩

theorem Keeps.then {ok : α → Prop} (hm : Keeps m) (hok : Yields ok m)
    (hf : ∀ a, ok a → Keeps (f a)) : Keeps (m >>= f) := by
  intro s
  have h1 := hm s
  rw [outcome_bind]
  rcases ho : outcome m s with ⟨e | a, t⟩ <;> rw [ho] at h1
  · exact h1
  · have h2 := hf a (hok s a (by rw [ho])) t
    exact ⟨h1.heap.trans h2.heap, fun hs => h2.log (h1.log hs)⟩

theorem Keeps.bind (hm : Keeps m) (hf : ∀ a, Keeps (f a)) : Keeps (m >>= f) :=
  hm.then (show Yields (fun _ => True) m from fun _ _ _ => trivial) fun a _ => hf a

theorem Keeps.pure (a : α) : Keeps (Pure.pure a) := .of_heap (fun _ => rfl) fun _ => rfl

theorem Keeps.throw (e : EvalError) : Keeps (MonadExcept.throw e : EvalM α) :=
  .of_heap (fun _ => rfl) fun _ => rfl

theorem keeps_heapNow : Keeps heapNow := .of_heap (fun _ => rfl) fun _ => rfl

theorem keeps_onHeap {f : Heap → α × Heap} (h : ∀ g : Heap, g.Kept (f g).2) : Keeps (onHeap f) :=
  fun s => ⟨h s.heap, fun hs => hs⟩

theorem keeps_fresh : Keeps fresh := fun s => ⟨s.heap.kept_next (Nat.le_succ _), fun hs => hs⟩

theorem keeps_textOf (t : Term) : Keeps (textOf t) := by
  have hprinting : Keeps (liftM (printing t.shown) : EvalM (Except PrintError String)) :=
    .of_heap (fun _ => rfl) fun _ => rfl
  refine hprinting.bind fun r => ?_
  cases r with
  | ok s => exact .pure s
  | error e => exact .throw _

theorem keeps_noteTerm (lead : String) (t : Term) : Keeps (liftM (noteTerm lead t) : EvalM Unit) := by
  intro s
  rw [outcome_noteTerm]
  split
  · rename_i hlog
    split <;> exact ⟨.refl _, fun hs => by rw [hs] at hlog; cases hlog⟩
  · exact ⟨.refl _, fun hs => hs⟩

theorem keeps_native (f : Native) (arg : Term) : Keeps (native f arg) := by
  refine keeps_heapNow.bind fun h => ?_
  split
  · split
    · exact keeps_fresh.bind fun _ => .pure _
    · exact .throw _
  · exact .throw _
  · split
    · exact .throw _
    · split
      · exact keeps_onHeap fun g => g.kept_place _
      · exact .throw _
  · exact .throw _
  · split
    · exact keeps_fresh.bind fun _ => .pure _
    · exact .throw _
  · rename_i bs _
    refine Keeps.bind (keeps_onHeap fun g => ?_) fun r => ?_
    · rcases ho : Decoder.parse { data := bs.toArray, heap := g } with ⟨r, d⟩
      exact (Wire.Frames.later (fun k n => Wire.frames_decode k n _) ho).kept
    · split
      · exact .pure _
      · exact .throw _
  · exact .throw _
  · exact keeps_fresh.bind fun _ => .pure _
  · exact .throw _

def keeping {rules : Rules} (hnative : ∀ f t, Keeps (rules.native f t)) (hquote : ∀ t, Keeps (rules.quote t)) :
    Uniform rules .one where
  Rel _ ok m _ := Keeps m ∧ Yields (ok ()) m
  later hm _ := hm
  mono hm h := ⟨hm.1, fun s a ha => h () a trivial (hm.2 s a ha)⟩
  bind hm hf := ⟨hm.1.then hm.2 fun a ha => (hf () a trivial ha).1, hm.2.bind fun a ha => (hf () a trivial ha).2⟩
  pure h := ⟨.pure _, .pure (h () trivial)⟩
  throw e := ⟨.throw e, .throw e⟩
  heapNow := ⟨keeps_heapNow, fun _ _ _ => .any _⟩
  fresh := ⟨keeps_fresh, fun _ _ _ => trivial⟩
  textOf t := ⟨keeps_textOf t, fun _ _ _ => trivial⟩
  note t := ⟨keeps_noteTerm "" t, fun _ _ _ => trivial⟩
  kept := @LeafWorlds.kept_one rules
  closure _ _ := ⟨keeps_onHeap fun g => g.kept_newClosure _ _, fun _ _ _ => .any _⟩
  naming x _ := ⟨keeps_onHeap fun g => g.kept_bind _ x _, fun _ _ _ => trivial⟩
  native f _ _ := ⟨hnative f _, fun _ _ _ => .any _⟩
  quote _ := ⟨hquote _, fun _ _ _ => .any _⟩

theorem keeps_applied (fuel : Nat) (f x : Term) : Keeps (applied .standard (eval fuel) f x) :=
  ((keeping keeps_native fun _ => .pure _).applied (w := ()) fuel (.any f) (.any x)).1

theorem keeps_evalBy {rules : Rules} (hnative : ∀ f t, Keeps (rules.native f t))
    (hquote : ∀ t, Keeps (rules.quote t)) (fuel : Nat) (env : Env) (t : Term) : Keeps (evalBy rules fuel env t) :=
  (((keeping hnative hquote).congruence.runs fuel).value (w := ()) ⟨rfl, fun _ _ => .any _, .any _⟩).1

theorem keeps_eval (fuel : Nat) (env : Env) (t : Term) : Keeps (eval fuel env t) :=
  keeps_evalBy keeps_native (fun _ => .pure _) fuel env t

end Eval

end Scrap
