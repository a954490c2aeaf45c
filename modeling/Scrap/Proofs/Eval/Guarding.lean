import Scrap.Proofs.Eval.Keeping
import Scrap.Proofs.Eval.Trimming

/-! # Invariants of evaluation

What holds of the closures in values may depend on the number of environments. If it holds of all closures from some
number on, the whole heap keeps it: evaluation has no other closures than those that it was given and new ones. -/

namespace Scrap.Eval

open Term Session

/-- `Q n` can hold of the closures in a heap of `n` environments: it holds of new ones, and of links. -/
structure Admits (Q : Nat → Term → Prop) (size : Nat) : Prop where
  mono : ∀ {n k u}, n ≤ k → Q n u → Q k u
  made : ∀ {n e c}, size ≤ e → e < n → Q n (.closure e c)
  link : ∀ {n i}, Q n (.link i)

/-- Such a heap; links that were not handed out stand for nothing. -/
structure Sealed (Q : Nat → Term → Prop) (size : Nat) (h : Heap) : Prop where
  holds : Holds (Q h.envs.size) h
  size : size ≤ h.envs.size
  untied : ∀ i, h.next ≤ i → h.resolve (.link i) = .link i

/-- From a sealed heap the computation fails, or it comes to a sealed heap and returns what is `ok`. -/
def Guards {α : Type} (Q : Nat → Term → Prop) (size w : Nat) (ok : Nat → α → Prop) (m : EvalM α) : Prop :=
  ∀ s t a, w ≤ s.heap.envs.size → Sealed Q size s.heap → outcome m s = (.ok a, t) →
    s.heap.envs.size ≤ t.heap.envs.size ∧ Sealed Q size t.heap ∧ ok t.heap.envs.size a

section Guards
variable {Q : Nat → Term → Prop} {size w : Nat} {h : Heap} {α β : Type} {ok : Nat → α → Prop} {m : EvalM α}

theorem Sealed.next (hs : Sealed Q size h) {n : Nat} (hn : h.next ≤ n) : Sealed Q size { h with next := n } :=
  ⟨⟨hs.holds.envs, hs.holds.resolves⟩, hs.size, fun i hi => hs.untied i (Nat.le_trans hn hi)⟩

theorem Sealed.newClosure (hQ : Admits Q size) (hs : Sealed Q size h) {env : Env} (code : Term)
    (henv : ∀ p ∈ env, p.2.Leaves (Q h.envs.size)) : Sealed Q size (h.newClosure env code).2 := by
  have hn := (h.kept_newClosure env code).size
  refine ⟨⟨fun e p hp => ?_, fun t ht => ?_⟩, Nat.le_trans hs.size hn, hs.untied⟩
  · exact ((Heap.mem_envOf_push hp).elim (henv p) (hs.holds.envs e p)).mono fun _ => hQ.mono hn
  · cases t with
    | link i => exact (hs.holds.resolves _ (leaves_link.mpr hQ.link)).mono fun _ => hQ.mono hn
    | _ => exact ht

theorem Guards.of_heap (h : ∀ s, (outcome m s).2.heap = s.heap) : Guards Q size w (fun _ _ => True) m := by
  intro s t a _ hs ho
  have := h s
  rw [ho] at this
  exact ⟨this ▸ Nat.le_refl _, by rwa [this], trivial⟩

theorem Guards.pure {a : α} (h : ∀ v, w ≤ v → ok v a) : Guards Q size w ok (Pure.pure a) := by
  intro s t b hw hs ho
  cases ho
  exact ⟨Nat.le_refl _, hs, h _ hw⟩

theorem Guards.throw (e : EvalError) : Guards Q size w ok (throw e) := by
  intro s t b _ _ ho
  cases ho

theorem Guards.bind {ok' : Nat → β → Prop} {f : α → EvalM β} (hm : Guards Q size w ok m)
    (hf : ∀ v a, w ≤ v → ok v a → Guards Q size v ok' (f a)) : Guards Q size w ok' (m >>= f) := by
  intro s t b hw hs ho
  obtain ⟨a, u, ha, hb⟩ := bind_returns ho
  obtain ⟨hle, hu, hok⟩ := hm s u a hw hs ha
  obtain ⟨hle', ht⟩ := hf _ a (Nat.le_trans hw hle) hok u t b (Nat.le_refl _) hu hb
  exact ⟨Nat.le_trans hle hle', ht⟩

theorem guards_fresh : Guards Q size w (fun _ _ => True) fresh := by
  intro s t a _ hs ho
  cases ho
  exact ⟨Nat.le_refl _, hs.next (Nat.le_succ _), trivial⟩

theorem guards_heapNow : Guards Q size w (fun v => Holds (Q v)) heapNow := by
  intro s t a _ hs ho
  cases ho
  exact ⟨Nat.le_refl _, hs, hs.holds⟩

/-- All that is read from bytes is new. -/
theorem guards_deserialize (hQ : Admits Q size) (t : Term) :
    Guards Q size w (fun v t => t.Leaves (Q v)) (native .deserialize t) := by
  intro s s' a _ hs ho
  cases hres : s.heap.resolve t with
  | bytes i bs =>
    rw [outcome_deserialize hres] at ho
    have hstart : Wire.ReadAlike s.heap (s.heap.next, s.heap.envs.size) { data := bs.toArray, heap := s.heap }
        { data := bs.toArray, heap := s.heap } :=
      ⟨rfl, rfl, rfl, fun _ ht => by simp at ht, ⟨rfl, rfl, Nat.le_refl _⟩, ⟨rfl, rfl, Nat.le_refl _⟩, rfl, fun i hi => by
        rw [if_neg (Nat.not_lt.mpr hi)]
        exact hs.untied i hi, fun e he p hp => by simp [Heap.envOf_of_le he] at hp⟩
    have htwin := Wire.rereads_decode (Decoder.depth + bs.toArray.size) _ _ _ ((Wire.reading s.heap).refl _) hstart
    rcases hp : Decoder.parse { data := bs.toArray, heap := s.heap } with ⟨e | u, d⟩ <;> rw [hp] at ho <;> cases ho
    obtain ⟨u', d', hp', v, -, hread, rfl, hu⟩ := htwin.returns hp
    have hl := Wire.Frames.later (fun k n => Wire.frames_decode k n _) hp
    obtain ⟨hn, -, hnext⟩ := hread.next
    have hnew : ∀ {t : Term}, t.Leaves (Wire.New s.heap v) → t.Leaves (Q d.heap.envs.size) := fun ht u hu hleaf => by
      have hu := ht u hu hleaf
      cases u with
      | closure e c => exact hQ.made (Nat.le_trans hs.size hu.1) (hread.size.1.symm ▸ hu.2)
      | link i => exact hQ.link
      | _ => cases hleaf
    refine ⟨hl.size, ⟨⟨fun e p hp => ?_, fun t ht => ?_⟩, Nat.le_trans hs.size hl.size, fun i hi => ?_⟩, hnew hu⟩
    · by_cases he : e < s.heap.envs.size
      · exact (hs.holds.envs e p (hl.envs e he ▸ hp)).mono fun _ => hQ.mono hl.size
      · exact hnew (hread.envs e (Nat.not_lt.mp he) p hp)
    · cases t with
      | link i =>
        by_cases hi : i < s.heap.next
        · rw [hl.knots i hi]
          exact (hs.holds.resolves _ (leaves_link.mpr hQ.link)).mono fun _ => hQ.mono hl.size
        · have := hread.links i (Nat.not_lt.mp hi)
          split at this
          · exact hnew this
          · exact (show d.heap.resolve (.link i) = _ from this).symm ▸ ht
      | _ => exact ht
    · have := hread.links i (Nat.le_trans hl.next hi)
      rwa [if_neg (Nat.not_lt.mpr (hn ▸ hi))] at this
  | _ =>
    rw [native, bind_ok (outcome_heapNow s), hres] at ho
    cases ho

theorem guards_native (hQ : Admits Q size) (f : Native) (t : Term) :
    Guards Q size w (fun v t => t.Leaves (Q v)) (native f t) := by
  have hatom : ∀ {v} (f : Nat → Term), (∀ i, (f i).isLeaf = false ∧ (f i).parts = []) →
      Guards Q size v (fun v t => t.Leaves (Q v)) (fresh >>= fun i => Pure.pure (f i)) :=
    fun f hf => guards_fresh.bind fun _ i _ _ => .pure fun _ _ => leaves_atom (hf i).1 (hf i).2
  by_cases hf : f = .deserialize
  · exact hf ▸ guards_deserialize hQ t
  refine guards_heapNow.bind fun _ h _ _ => ?_
  split
  · split
    · exact hatom _ fun _ => ⟨rfl, rfl⟩
    · exact .throw _
  · exact .throw _
  · split
    · exact .throw _
    · split
      · rename_i u hu
        intro s t a _ hs ho
        cases ho
        obtain ⟨hv, hn⟩ := placed_ofJson (Q := Q s.heap.envs.size) _ s.heap.next hu
        exact ⟨Nat.le_refl _, hs.next hn, hv⟩
      · exact .throw _
  · exact .throw _
  · split
    · exact hatom _ fun _ => ⟨rfl, rfl⟩
    · exact .throw _
  · exact (hf rfl).elim
  · exact (hf rfl).elim
  · exact hatom _ fun _ => ⟨rfl, rfl⟩
  · exact .throw _

/-- Whatever evaluation does keeps a heap sealed. -/
def guarding (hQ : Admits Q size) : Uniform .standard ⟨Nat, Nat.le, Nat.le_refl, Nat.le_trans, Q, hQ.mono⟩ where
  Rel w ok m _ := Guards Q size w ok m
  later hm hv s t a hw := hm s t a (Nat.le_trans hv hw)
  mono hm h s t a hw hs ho := by
    obtain ⟨hle, ht, hok⟩ := hm s t a hw hs ho
    exact ⟨hle, ht, h _ a (Nat.le_trans hw hle) hok⟩
  bind := Guards.bind
  pure := Guards.pure
  throw := Guards.throw
  heapNow := guards_heapNow
  fresh := guards_fresh
  textOf t := .of_heap fun s => by
    rw [Session.textOf, bind_ok (outcome_printing t s)]
    cases (outcome (t.shown s.heap) s.seen).1 <;> rfl
  note t := .of_heap fun s => by
    rw [outcome_noteTerm]
    split
    · split <;> rfl
    · rfl
  kept {w env code k} hk henv p hp := by
    change trimmed env code = .ok k at hk
    unfold trimmed at hk
    split at hk <;> cases hk
    exact henv p (Dict.mem_restrict.mp hp).1
  closure {w env code} henv hc := by
    intro s t a hw hs ho
    cases ho
    have hn := (s.heap.kept_newClosure env code).size
    refine ⟨hn, hs.newClosure hQ code fun p hp => (henv p hp).mono fun _ => hQ.mono hw,
      leaves_closure.mpr ⟨hQ.made hs.size ?_, hc.mono fun _ => hQ.mono (Nat.le_trans hw hn)⟩⟩
    exact Nat.lt_of_lt_of_eq (Nat.lt_succ_self _) (Array.size_push _).symm
  naming {w e code} x hv := by
    intro s t a hw hs ho
    cases ho
    have hn : (s.heap.bind e x (.closure e code)).envs.size = s.heap.envs.size := Heap.size_setEnv _ _ _
    refine ⟨Nat.le_of_eq hn.symm, ⟨⟨fun j p hp => ?_, fun t ht => ?_⟩, hn.symm ▸ hs.size, hs.untied⟩, trivial⟩ <;> rw [hn] at *
    · exact (Heap.mem_envOf_setEnv hp).elim (values_set (hs.holds.envs e) (hv.mono fun _ => hQ.mono hw) p) (hs.holds.envs j p)
    · exact hs.holds.resolves t ht
  native f _ _ := guards_native hQ f _
  quote ht := .pure fun _ hv => ht.mono fun _ => hQ.mono hv

theorem guards_applied (hQ : Admits Q size) (n : Nat) {f x : Term} (hf : f.Leaves (Q w)) (hx : x.Leaves (Q w)) :
    Guards Q size w (fun v t => t.Leaves (Q v)) (applied .standard (eval n) f x) :=
  (guarding hQ).applied n hf hx

end Guards

end Scrap.Eval
