import Scrap.Proofs.Eval.Mirrors
import Scrap.Proofs.Wire.Frames
import Scrap.Proofs.Wire.TwoHeaps

/-! # Trimming closures changes nothing

A run that keeps the whole environment in every closure comes to the same as one that keeps what the code mentions,
unless the program compares two closures, or writes or reads one as bytes. -/

namespace Scrap

variable {f : Native} {arg u : Term}

/-- A closure can be reached from the term. -/
def Heap.BearsClosure (h : Heap) (t : Term) : Prop := ∃ e c, h.Reaches t (.closure e c)

section Reaches
open Term
variable {h : Heap} {r t : Term}

theorem Heap.Reaches.inside (hr : h.Reaches r t) (hu : u.Inside t) : h.Reaches r u := by
  induction hu with
  | self => exact hr
  | part hu _ ih => exact ih (hr.part hu)

theorem Heap.Reaches.leaves (hr : h.Reaches r t) : t.Leaves (h.Reaches r) := fun _ hu _ => hr.inside hu

theorem resolves_reaches (h : Heap) (r : Term) : Resolves h (h.Reaches r) := fun t ht => by
  cases t with
  | link i => exact (Heap.Reaches.link (ht _ .self rfl)).leaves
  | _ => exact ht

end Reaches

namespace Eval

open Term Session

/-! ### Rules -/

/-- The rules of the language, but a closure keeps the whole environment. -/
def Rules.plain : Rules := { Rules.standard with keep := fun env _ => .ok env }

/-- A built-in function writes a closure as bytes, or reads one. -/
def Touches (h : Heap) (f : Native) (arg : Term) : Prop :=
  match f with
  | .serialize => h.BearsClosure arg
  | .deserialize => ∃ i bs, h.resolve arg = .bytes i bs ∧
    h.envs.size < (Decoder.parse { data := bs.toArray, heap := h }).2.heap.envs.size
  | _ => False

open Classical in
/-- The rules of the language, but a program that compares closures, or writes or reads one as bytes, fails with
`stop`. -/
noncomputable def Rules.watched (stop : EvalError) : Rules :=
  { Rules.standard with
    equal := fun h a b => if h.BearsClosure a ∧ h.BearsClosure b then .error stop else Rules.standard.equal h a b
    native := fun f arg => do if Touches (← heapNow) f arg then throw stop else Eval.native f arg }

/-- The run does not look into closures: it compares no two of them, and it writes and reads none as bytes. -/
def Quiet (fuel : Nat) (env : Env) (t : Term) (s : Session) : Prop :=
  ∃ stop, (outcome (evalBy (.watched stop) fuel env t) s).1 ≠ .error stop

/-! ### What is kept -/

/-- Trimming again gives the same environments. -/
def Keeping.trimmed : Keeping where
  keep := Eval.trimmed
  rel := Eq
  refl _ := rfl
  set _ _ h := h ▸ rfl
  merge _ h := h ▸ rfl
  define _ _ _ _ h := h ▸ rfl
  kept hv h hp := by
    subst h
    refine ⟨_, by rw [Eval.trimmed, hv], rfl, hp.restrict _, fun p hp => (Dict.mem_restrict.mp hp).1, fun x hx => ?_⟩
    rw [Dict.get?_restrict, if_pos hx]

/-- A whole environment has what the trimmed one has. -/
def Keeping.whole : Keeping where
  keep env _ := .ok env
  rel := Dict.Within
  refl := Dict.Within.refl
  set x v h := h.set x v
  merge he h := .merge he he h (.refl _) fun _ _ hn _ => .inl hn
  define x v hd hd' h := by
    refine .merge (hd.set x v) (hd'.set x v) h (h.set x v) fun k w hn hk => ?_
    rw [Dict.get?_set] at hn
    split at hn
    · cases hn
    · rw [hn] at hk
      cases hk
  kept _ h hp := ⟨_, rfl, (Dict.restrict_within _ _).trans h, hp, fun _ h => h, fun _ _ => rfl⟩

/-! ### Built-in functions -/

section Natives
variable {P : Parallel} {Q : Term → Prop} {s s' : Session}

mutual

theorem placed_ofJson : ∀ (j : Json) {t : Term} (n : Nat), ofJson j = .ok t →
    (t.placeFrom n).1.Leaves Q ∧ n ≤ (t.placeFrom n).2
  | .null, _, _, h | .float, _, _, h => nomatch h
  | .bool _, _, n, h | .int _, _, n, h | .string _, _, n, h => by
    cases h
    exact ⟨leaves_atom rfl rfl, Nat.le_succ n⟩
  | .array xs, _, n, h => by
    obtain ⟨ts, hts, h⟩ := bind_eq_ok.mp h
    cases h
    obtain ⟨hl, hn⟩ := placed_all xs (n + 1) hts
    exact ⟨leaves_list.mpr hl, Nat.le_of_succ_le hn⟩
  | .object fs, _, n, h => by
    obtain ⟨ts, hts, h⟩ := bind_eq_ok.mp h
    cases h
    obtain ⟨hl, hn⟩ := placed_fields fs (n + 1) hts
    exact ⟨leaves_record.mpr hl, Nat.le_of_succ_le hn⟩

theorem placed_all : ∀ (xs : List Json) {ts : List Term} (n : Nat), ofJson.all xs = .ok ts →
    (∀ t ∈ (placeAll n ts).1, t.Leaves Q) ∧ n ≤ (placeAll n ts).2
  | [], _, n, h => by
    cases h
    exact ⟨fun _ ht => (by cases ht), Nat.le_refl n⟩
  | x :: xs, _, n, h => by
    obtain ⟨t, ht, h⟩ := bind_eq_ok.mp h
    obtain ⟨ts, hts, h⟩ := bind_eq_ok.mp h
    cases h
    obtain ⟨hl, hn⟩ := placed_ofJson x n ht
    obtain ⟨hls, hns⟩ := placed_all xs (t.placeFrom n).2 hts
    exact ⟨List.forall_mem_cons.mpr ⟨hl, hls⟩, Nat.le_trans hn hns⟩

theorem placed_fields : ∀ (fs : List (String × Json)) {ts : List (String × Term)} (n : Nat), ofJson.fields fs = .ok ts →
    (∀ p ∈ (placeFields n ts).1, p.2.Leaves Q) ∧ n ≤ (placeFields n ts).2
  | [], _, n, h => by
    cases h
    exact ⟨fun _ ht => (by cases ht), Nat.le_refl n⟩
  | (k, x) :: fs, _, n, h => by
    obtain ⟨t, ht, h⟩ := bind_eq_ok.mp h
    obtain ⟨ts, hts, h⟩ := bind_eq_ok.mp h
    cases h
    obtain ⟨hl, hn⟩ := placed_ofJson x n ht
    obtain ⟨hls, hns⟩ := placed_fields fs (t.placeFrom n).2 hts
    exact ⟨List.forall_mem_cons.mpr ⟨hl, hls⟩, Nat.le_trans hn hns⟩

end

theorem mirrors_place {j : Json} {t : Term} (ht : ofJson j = .ok t) :
    MirrorsTerm P Q (onHeap fun h => h.place t) (onHeap fun h => h.place t) := fun v s s' _ hm => by
  have hnext : s'.heap.next = s.heap.next := hm.agrees.next
  obtain ⟨hl, hn⟩ := placed_ofJson (Q := v) j s.heap.next ht
  refine ⟨_, _, rfl, v, fun _ h => h, hm.skip hn ?_, ?_, hl⟩
  · show (t.placeFrom s'.heap.next).2 = (t.placeFrom s.heap.next).2
    rw [hnext]
  · show (t.placeFrom s'.heap.next).1 = (t.placeFrom s.heap.next).1
    rw [hnext]

theorem mirrors_native (hf : f ≠ .serialize ∧ f ≠ .deserialize) (arg : Term) :
    MirrorsTerm P Q (native f arg) (native f arg) := by
  refine .heap fun v s s' _ hm => ?_
  rw [hm.resolve]
  split
  · split
    · exact mirrors_placed fun _ => leaves_atom rfl rfl
    · exact .throw _
  · exact .throw _
  · split
    · exact .throw _
    · split
      · exact mirrors_place ‹_›
      · exact .throw _
  · exact .throw _
  · exact (hf.1 rfl).elim
  · exact (hf.2 rfl).elim
  · exact (hf.2 rfl).elim
  · exact mirrors_placed fun _ => leaves_atom rfl rfl
  · exact .throw _

def MirrorsAt (P : Parallel) (Q : Term → Prop) (s s' : Session) (m m' : EvalM Term) : Prop :=
  Twin (fun x => x = P.stop)
    (fun a a' t t' => ∃ u, (∀ w, Q w → u w) ∧ Alongside P u t t' ∧ a' = a ∧ a.Leaves u) m m' s s'

theorem outcome_heapNow (s : Session) : outcome heapNow s = (.ok s.heap, s) := rfl

theorem outcome_serialize {r : Except EncodeError (List UInt8)} (hr : (s.heap.resolve arg).serialized s.heap = r) :
    outcome (native .serialize arg) s =
      outcome (match r with
        | .ok bs => do return .bytes (← fresh) bs
        | .error e => throw (.encoding e)) s := by
  rw [native, bind_ok (outcome_heapNow s)]
  cases r <;> simp only [hr]

theorem outcome_deserialize {i : Nat} {bs : List UInt8} (hr : s.heap.resolve arg = .bytes i bs) :
    outcome (native .deserialize arg) s =
      (match (Decoder.parse { data := bs.toArray, heap := s.heap }).1 with
        | .ok t => .ok t
        | .error e => .error (.decoding e),
       { s with heap := (Decoder.parse { data := bs.toArray, heap := s.heap }).2.heap }) := by
  rw [native, bind_ok (outcome_heapNow s), hr]
  dsimp only
  rw [bind_ok (show outcome (onHeap fun heap =>
    ((Decoder.parse { data := bs.toArray, heap }).1, (Decoder.parse { data := bs.toArray, heap }).2.heap)) s = _ from rfl)]
  cases (Decoder.parse { data := bs.toArray, heap := s.heap }).1 <;> rfl

theorem mirrorsAt_serialize (hm : Alongside P Q s s') (hnone : ¬ s.heap.BearsClosure arg) :
    MirrorsAt P Q s s' (native .serialize arg) (native .serialize arg) := by
  have hbytes : (s'.heap.resolve arg).serialized s'.heap = (s.heap.resolve arg).serialized s.heap := by
    rw [hm.resolve]
    exact Wire.serialized_alike hm.resolve hm.agrees.rounds (resolves_reaches s.heap arg)
      (fun e c hc => hnone ⟨e, c, hc⟩) (resolves_reaches _ _ _ Heap.Reaches.root.leaves)
  have hplaced := fun bs : List UInt8 =>
    mirrors_placed (P := P) (f := fun i => .bytes i bs) (fun _ => leaves_atom rfl rfl) Q s s' (fun _ h => h) hm
  unfold MirrorsAt Twin
  rw [outcome_serialize rfl, outcome_serialize hbytes]
  cases (s.heap.resolve arg).serialized s.heap with
  | ok bs => exact hplaced bs
  | error e => exact .inr rfl

/-- What is read without a closure has new links in it and nothing else that is in the heap. -/
theorem Alongside.read (hm : Alongside P Q s s') {v : Nat × Nat} {d d' : Decoder} (hr : Wire.ReadAlike s.heap v d d')
    (hl : s.heap.Later d.heap) (hl' : s'.heap.Later d'.heap) (hsize : d.heap.envs.size = s.heap.envs.size) :
    ∃ u, (∀ w, Q w → u w) ∧ Alongside P u { s with heap := d.heap } { s' with heap := d'.heap } ∧
      ∀ t : Term, t.Leaves (Wire.New s.heap v) → t.Leaves u := by
  obtain ⟨hn, hn', hnext⟩ := hr.next
  obtain ⟨hs, hs', -⟩ := hr.size
  have hsize' : d'.heap.envs.size = s'.heap.envs.size := by rw [hs', ← hs, hsize, hm.agrees.size]
  have henvs : ∀ {g g' : Heap}, g.Later g' → g'.envs.size = g.envs.size → ∀ e, g'.envOf e = g.envOf e := by
    intro g g' hg hgs e
    by_cases he : e < g.envs.size
    · exact hg.envs e he
    · rw [Heap.envOf_of_le (Nat.not_lt.mp he), Heap.envOf_of_le (hgs ▸ Nat.not_lt.mp he)]
  have hnew : ∀ t, t.isLeaf = true → Wire.New s.heap v t → ∃ i, t = .link i ∧ s.heap.next ≤ i ∧ i < d.heap.next := by
    intro t ht hnew
    cases t with
    | link i => exact ⟨i, rfl, hnew.1, hn ▸ hnew.2⟩
    | closure e c =>
      obtain ⟨h1, h2⟩ := hnew
      omega
    | _ => cases ht
  refine ⟨fun u => Q u ∨ ∃ i, u = .link i ∧ s.heap.next ≤ i ∧ i < d.heap.next, fun _ => Or.inl, ?_,
    fun t ht u hu hleaf => .inr (hnew u hleaf (ht u hu hleaf))⟩
  refine hm.grow (fun _ => Or.inl) ?_ hl (hn'.trans hn.symm) hr.knots ⟨hsize, hsize'⟩
    (fun e => ⟨henvs hl hsize e, henvs hl' hsize' e⟩) fun i hi => ?_
  · rintro u (hu | ⟨i, rfl, hge, hlt⟩)
    · exact .inl hu
    · have hres := hr.links i hge
      rw [if_pos (hn ▸ hlt)] at hres
      exact .inr ⟨i, rfl, hlt, fun w hw hleaf => .inr (hnew w hleaf (hres w hw hleaf))⟩
  · have hres := hr.links i (Nat.le_trans hl.next hi)
    rwa [if_neg (by omega)] at hres

theorem mirrorsAt_deserialize (hm : Alongside P Q s s') (hnone : ¬ Touches s.heap .deserialize arg) :
    MirrorsAt P Q s s' (native .deserialize arg) (native .deserialize arg) := by
  cases hres : s.heap.resolve arg with
  | bytes i bs =>
    have hstart : Wire.ReadAlike s.heap (s.heap.next, s.heap.envs.size) { data := bs.toArray, heap := s.heap }
        { data := bs.toArray, heap := s'.heap } :=
      ⟨rfl, rfl, rfl, fun _ ht => by simp at ht, ⟨rfl, hm.agrees.next, Nat.le_refl _⟩,
        ⟨rfl, hm.agrees.size, Nat.le_refl _⟩, hm.agrees.knots, fun i hi => by
          rw [if_neg (Nat.not_lt.mpr hi)]
          exact hm.untied i hi, fun e he p hp => by simp [Heap.envOf_of_le he] at hp⟩
    have htwin := Wire.rereads_decode (Decoder.depth + bs.toArray.size) _ _ _ ((Wire.reading s.heap).refl _) hstart
    unfold MirrorsAt Twin
    rw [outcome_deserialize hres, outcome_deserialize ((hm.resolve arg).trans hres)]
    rcases ho : Decoder.parse { data := bs.toArray, heap := s.heap } with ⟨e | t, d⟩
    · obtain hf | hfail := htwin.fails ho
      · exact hf.elim
      · refine .inr ?_
        rw [show (Decoder.parse { data := bs.toArray, heap := s'.heap }).1 = .error e from hfail]
    · obtain ⟨t', d', ho', v, -, hread, rfl, ht⟩ := htwin.returns ho
      have hl := Wire.Frames.later (fun k n => Wire.frames_decode k n _) ho
      have hl' := Wire.Frames.later (fun k n => Wire.frames_decode k n _) ho'
      have hsize : d.heap.envs.size = s.heap.envs.size := by
        refine Nat.le_antisymm (Nat.not_lt.mp fun hlt => hnone ⟨i, bs, hres, ?_⟩) hl.size
        rw [ho]
        exact hlt
      obtain ⟨u, hu, hmu, hleaves⟩ := hm.read hread hl hl' hsize
      rw [show Decoder.parse { data := bs.toArray, heap := s'.heap } = (.ok t', d') from ho']
      exact ⟨t', _, rfl, u, hu, hmu, rfl, hleaves t' ht⟩
  | _ =>
    unfold MirrorsAt Twin
    rw [native, bind_ok (outcome_heapNow s), bind_ok (outcome_heapNow s'), hm.resolve, hres]
    exact .inr rfl

/-- The watched rules do what the other rules do, or stop. -/
theorem watches (P : Parallel) :
    Watches P (Rules.watched P.stop) { Rules.standard with keep := P.keeping.keep } where
  keep := rfl
  keep' := rfl
  quote _ := ⟨rfl, rfl⟩
  equal {Q s s' a b} hm := by
    by_cases hab : s.heap.BearsClosure a ∧ s.heap.BearsClosure b
    · exact .inl (if_pos hab)
    · have hcomp : Comparable s.heap s'.heap (s.heap.Reaches a) (s.heap.Reaches b) :=
        { links := hm.resolve
          turns := hm.agrees.comparable.turns
          left := resolves_reaches s.heap a
          right := resolves_reaches s.heap b
          envs := fun e c e' c' ha hb => (hab ⟨⟨e, c, ha⟩, e', c', hb⟩).elim }
      refine .inr (.trans ?_ (if_neg hab).symm)
      simp only [Rules.standard, hcomp.equal? Heap.Reaches.root.leaves Heap.Reaches.root.leaves]
  native {Q f a} _ := by
    intro v s s' _ hm
    unfold Twin
    by_cases ht : Touches s.heap f a
    · rw [Rules.watched, bind_ok (outcome_heapNow s), if_pos ht]
      exact .inl rfl
    · rw [Rules.watched, bind_ok (outcome_heapNow s), if_neg ht]
      cases f with
      | serialize => exact mirrorsAt_serialize hm ht
      | deserialize => exact mirrorsAt_deserialize hm ht
      | _ => exact mirrors_native ⟨by decide, by decide⟩ a v s s' (fun _ h => h) hm

end Natives

/-! ### Runs -/

/-- What evaluation can get at: the term, the values of the environment and what the printer remembers. -/
def roots (s : Session) (env : Env) (t : Term) : List Term := t :: env.map Prod.snd ++ s.seen

/-- A session, an environment and a term that evaluation can start from. The names of an environment are distinct, a
link or a closure is one of the heap, and in the term and in the code of the closures a definition stands only in a
scope, each function has free variables, and each spread of a pattern comes last. -/
structure Ready (s : Session) (env : Env) (t : Term) : Prop where
  tame : t.tame = true
  finite : t.Leaves fun u => u.isClosure = true
  proper : env.Proper
  untied : ∀ i, s.heap.next ≤ i → s.heap.resolve (.link i) = .link i
  links : ∀ r ∈ roots s env t, ∀ i, s.heap.Reaches r (.link i) → i < s.heap.next
  closures : ∀ r ∈ roots s env t, ∀ e c, s.heap.Reaches r (.closure e c) →
    e < s.heap.envs.size ∧ (s.heap.envOf e).Proper ∧ c.freeVars.isOk = true ∧ c.tame = true

/-- The second session has what the first has, and at most more names in the environments of closures; the code of no
closure that can be reached from `t` mentions one of those. -/
structure Widens (t : Term) (s s' : Session) : Prop where
  seen : s'.seen = s.seen
  log : s'.log = s.log
  next : s'.heap.next = s.heap.next
  knots : s'.heap.knots = s.heap.knots
  size : s'.heap.envs.size = s.heap.envs.size
  envs : ∀ e, (s.heap.envOf e).Within (s'.heap.envOf e)
  mentioned : ∀ e c, s.heap.Reaches t (.closure e c) → ∀ x, c.Mentions x →
    (s'.heap.envOf e).get? x = (s.heap.envOf e).get? x

section Runs
variable {s : Session} {env : Env} {t : Term}

/-- The closures and links that are there at the start. -/
def Ready.parallel (hr : Ready s env t) (K : Keeping) (stop : EvalError) : Parallel where
  keeping := K
  old u := ∃ r ∈ roots s env t, s.heap.Reaches r u
  size := s.heap.envs.size
  stop := stop
  old_lt := fun e c ⟨r, hroot, hc⟩ => (hr.closures r hroot e c hc).1

theorem Ready.leaves (hr : Ready s env t) (K : Keeping) (stop : EvalError) {r : Term} (hroot : r ∈ roots s env t)
    (hu : s.heap.Reaches r u) : u.Leaves (hr.parallel K stop).old :=
  hu.leaves.mono fun _ h => ⟨r, hroot, h⟩

theorem Ready.alongside (hr : Ready s env t) (K : Keeping) (stop : EvalError) :
    Alongside (hr.parallel K stop) (hr.parallel K stop).old s s where
  agrees :=
    { next := rfl
      size := rfl
      knots := rfl
      resolves := fun u hu => by
        cases u with
        | link i =>
          obtain ⟨r, hroot, hi⟩ := hu _ .self rfl
          exact hr.leaves K stop hroot hi.link
        | _ => exact hu
      envs := fun e c ⟨r, hroot, hc⟩ => ⟨rfl, fun p hp => hr.leaves K stop hroot (hc.value hp)⟩ }
  seen := rfl
  log := rfl
  remembered u hu := hr.leaves K stop (List.mem_append_right _ hu) .root
  untied := hr.untied
  size := Nat.le_refl _
  old _ h := h
  young _ _ h _ := h
  closures := fun e c ⟨r, hroot, hc⟩ => by
    obtain ⟨hlt, hproper, hvars, htame⟩ := hr.closures r hroot e c hc
    have hcode : c.Leaves (hr.parallel K stop).old := hr.leaves K stop hroot (hc.part (.head _))
    refine ⟨hlt, ⟨htame, fun u hu hl => ⟨hcode u hu hl, leaves_of_freeVars hvars u hu hl⟩⟩, hvars, ?_⟩
    exact ⟨K.refl _, ⟨hproper, hproper⟩, fun p hp => hr.leaves K stop hroot (hc.value hp),
      fun p hp => hr.leaves K stop hroot (hc.value hp), fun _ _ => rfl⟩
  links := fun i ⟨r, hroot, hi⟩ => ⟨hr.links r hroot i hi, hr.leaves K stop hroot hi.link⟩
  envs _ := K.refl _

theorem Ready.code (hr : Ready s env t) (K : Keeping) (stop : EvalError) : Code (hr.parallel K stop) t :=
  ⟨hr.tame, fun u hu hl => ⟨hr.leaves K stop (.head _) .root u hu hl, hr.finite u hu hl⟩⟩

/-- Unless the first computation stops the comparison, both come to the same from the session. -/
abbrev Parallel.Twins (P : Parallel) (s : Session) (m m' : EvalM Term) : Prop :=
  Twin (fun e => e = P.stop) (fun v v' w w' => ∃ u, Alongside P u w w' ∧ v' = v ∧ v.Leaves u) m m' s s

theorem Ready.twin_of_mirrors (hr : Ready s env t) {K : Keeping} {stop : EvalError} {m m' : EvalM Term}
    (hm : MirrorsTerm (hr.parallel K stop) (hr.parallel K stop).old m m') : (hr.parallel K stop).Twins s m m' :=
  (hm _ s s (fun _ h => h) (hr.alongside K stop)).mono fun _ _ _ _ ⟨u, _, hm, hv⟩ => ⟨u, hm, hv⟩

/-- A watched run and a run in an environment that has what the term can ask for. -/
theorem Ready.twin_within (hr : Ready s env t) {K : Keeping} {stop : EvalError} {S : String → Prop} {env' : Env}
    (hn : Needs t S) (hprov : Provides K (hr.parallel K stop).old S env env') (fuel : Nat) :
    (hr.parallel K stop).Twins s (evalBy (.watched stop) fuel env t)
      (evalBy { Rules.standard with keep := K.keep } fuel env' t) :=
  hr.twin_of_mirrors (((watches (hr.parallel K stop)).congruence.runs fuel).value ⟨hr.code K stop, S, hn, hprov⟩)

theorem Ready.leaves_env (hr : Ready s env t) (K : Keeping) (stop : EvalError) :
    ∀ p ∈ env, p.2.Leaves (hr.parallel K stop).old := fun _ hp =>
  hr.leaves K stop (.tail _ (List.mem_append_left _ (List.mem_map_of_mem hp))) .root

theorem Ready.twin (hr : Ready s env t) (K : Keeping) (stop : EvalError) (fuel : Nat) :
    (hr.parallel K stop).Twins s (evalBy (.watched stop) fuel env t)
      (evalBy { Rules.standard with keep := K.keep } fuel env t) :=
  hr.twin_within (needs_all fun _ => trivial)
    ⟨K.refl env, ⟨hr.proper, hr.proper⟩, hr.leaves_env K stop, hr.leaves_env K stop, fun _ _ => rfl⟩ fuel

theorem inside_of_reaches {h : Heap} {r : Term} (hr : r.Leaves fun _ => False) (hu : h.Reaches r u) : u.Inside r := by
  induction hu with
  | root => exact .self
  | part _ hp ih => exact (Inside.part hp .self).trans ih
  | link _ ih => exact (hr _ ih rfl).elim
  | value _ _ ih => exact (hr _ ih rfl).elim

theorem ready_of_isPart (hroots : ∀ r ∈ roots s env t, r.isPart = true) (htame : t.tame = true)
    (hproper : env.Proper) (huntied : ∀ i, s.heap.next ≤ i → s.heap.resolve (.link i) = .link i) : Ready s env t := by
  have hleaf : ∀ r ∈ roots s env t, r.Leaves fun _ => False := fun r hr u hu hl => by
    rw [isLeaf_of_isPart (hu.isPart (hroots r hr))] at hl
    cases hl
  exact
    { tame := htame
      finite := (hleaf t (.head _)).mono fun _ h => h.elim
      proper := hproper
      untied := huntied
      links := fun r hroot _ hi => (hleaf r hroot _ (inside_of_reaches (hleaf r hroot) hi) rfl).elim
      closures := fun r hroot _ _ hc => (hleaf r hroot _ (inside_of_reaches (hleaf r hroot) hc) rfl).elim }

/-- The trimming of closures cannot be noticed. -/
theorem eval_alike_plain (hr : Ready s env t) {fuel : Nat} (hq : Quiet fuel env t s) :
    (∃ v s₁ s₂, outcome (eval fuel env t) s = (.ok v, s₁) ∧ outcome (evalBy .plain fuel env t) s = (.ok v, s₂) ∧
      Widens v s₁ s₂) ∨
    ∃ e, (outcome (eval fuel env t) s).1 = .error e ∧ (outcome (evalBy .plain fuel env t) s).1 = .error e := by
  obtain ⟨stop, hq⟩ := hq
  have htrimmed := hr.twin .trimmed stop fuel
  have hwhole := hr.twin .whole stop fuel
  rcases ho : outcome (evalBy (.watched stop) fuel env t) s with ⟨e | v, w⟩
  · have hstop : e ≠ stop := fun he => hq (by rw [ho, he])
    exact Or.inr ⟨e, (htrimmed.fails ho).resolve_left hstop, (hwhole.fails ho).resolve_left hstop⟩
  · obtain ⟨v₁, s₁, ho₁, u₁, hm₁, rfl, -⟩ := htrimmed.returns ho
    obtain ⟨v₂, s₂, ho₂, u₂, hm₂, rfl, hv⟩ := hwhole.returns ho
    refine Or.inl ⟨v₂, s₁, s₂, ho₁, ho₂, ?_⟩
    have henvs : ∀ e, s₁.heap.envOf e = w.heap.envOf e := fun e => (hm₁.envs e).symm
    have hreached : ∀ x, s₁.heap.Reaches v₂ x → x.Leaves u₂ := by
      intro x hx
      induction hx with
      | root => exact hv
      | part _ hp ih => exact ih.part hp
      | link _ ih =>
        rw [hm₁.resolve]
        exact hm₂.resolves _ ih
      | value _ hp ih =>
        rw [henvs] at hp
        exact (hm₂.closures _ _ (ih _ .self rfl)).env.leaves _ hp
    exact
      { seen := hm₂.seen.trans hm₁.seen.symm
        log := hm₂.log.trans hm₁.log.symm
        next := hm₂.agrees.next.trans hm₁.agrees.next.symm
        knots := hm₂.agrees.knots.trans hm₁.agrees.knots.symm
        size := hm₂.agrees.size.trans hm₁.agrees.size.symm
        envs := fun e => henvs e ▸ hm₂.envs e
        mentioned := fun e c hc x hx => by
          rw [henvs]
          exact (hm₂.closures e c (hreached _ hc _ .self rfl)).env.same x hx }

end Runs

/-- A function that calls itself, under a second name: `[h, h 2] . h = g . g = | 0 -> a | n -> n + g (n - 1)`. -/
def renamedSum : Term :=
  .scope 0 (.scope 0 (.list 0 [.var 0 "h", .apply 0 (.var 0 "h") (.int 0 2)]) (.assign 0 "h" (.var 0 "g")))
    (.assign 0 "g" (.matchFunction 0 [(.int 0 0, .var 0 "a"),
      (.var 0 "n", .binop 0 .add (.var 0 "n") (.apply 0 (.var 0 "g") (.binop 0 .sub (.var 0 "n") (.int 0 1))))]))

/-- Only one of the names occurs in `renamedSum`. -/
def twoNumbers : Env := [("a", .int 0 7), ("b", .int 0 8)]

theorem renamedSum_ready : Ready {} twoNumbers renamedSum :=
  ready_of_isPart (by decide +kernel) rfl (show twoNumbers.keys.Nodup by decide) fun _ _ => rfl

theorem quiet_of_isOk {n : Nat} {env : Env} {t : Term} {s : Session}
    (h : (outcome (evalBy (.watched .notBytes) n env t) s).1.isOk = true) : Quiet n env t s := by
  refine ⟨.notBytes, fun hstop => ?_⟩
  rw [hstop] at h
  cases h

theorem renamedSum_quiet : Quiet 12 twoNumbers renamedSum {} := quiet_of_isOk (by decide +kernel)

def secondNumber? (t : Term) : Option Int := t.parts[1]?.bind int?

theorem renamedSum_alike :
    Ready {} twoNumbers renamedSum ∧ Quiet 12 twoNumbers renamedSum {} ∧
      (outcome (eval 12 twoNumbers renamedSum) {}).1.toOption.bind secondNumber? = some 10 ∧
      ((∃ v s₁ s₂, outcome (eval 12 twoNumbers renamedSum) {} = (.ok v, s₁) ∧
        outcome (evalBy .plain 12 twoNumbers renamedSum) {} = (.ok v, s₂) ∧ Widens v s₁ s₂) ∨
      ∃ e, (outcome (eval 12 twoNumbers renamedSum) {}).1 = .error e ∧
        (outcome (evalBy .plain 12 twoNumbers renamedSum) {}).1 = .error e) :=
  ⟨renamedSum_ready, renamedSum_quiet, by decide +kernel, eval_alike_plain renamedSum_ready renamedSum_quiet⟩

end Eval

end Scrap
