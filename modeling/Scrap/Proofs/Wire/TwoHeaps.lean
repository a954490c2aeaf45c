import Scrap.Proofs.Term.Comparing
import Scrap.Proofs.Heap
import Scrap.Proofs.Wire.Format
import Scrap.Proofs.Wire.Tracking

/-! # Writing and reading in two heaps

A term from which no closure can be reached is written alike in two heaps with the same links, and bytes are read alike
into heaps that hand out the same numbers next. -/

namespace Scrap.Wire

open Term Decoder

variable {v : Nat × Nat} {t : Term}

/-! ### Writing -/

section Writing
variable {order : Order} {h h' : Heap} {Q : Term → Prop} {far far' : Term → EncodeM Unit}

theorem forM_congr {α : Type} {f g : α → EncodeM Unit} {l : List α} (hl : ∀ a ∈ l, f a = g a) :
    l.forM f = l.forM g := by
  induction l with
  | nil => rfl
  | cons a l ih => rw [List.forM, List.forM, hl a (.head _), ih fun b hb => hl b (.tail _ hb)]

theorem encodeWith_alike (hlinks : ∀ t, h'.resolve t = h.resolve t) (hQ : Resolves h Q)
    (hnone : ∀ e c, ¬ Q (.closure e c)) (hfar : ∀ u : Term, u.Leaves Q → far' u = far u) (t : Term) (ht : t.Leaves Q) :
    Encoder.encodeWith order h' far' t = Encoder.encodeWith order h far t := by
  induction t using parts_induction with
  | step t ih =>
    have part := fun u hu => ih u hu (ht.part hu)
    cases t with
    | list i items =>
      have hitems : ∀ t ∈ items, Encoder.encodeWith order h' far' t = Encoder.encodeWith order h far t := part
      rw [Encoder.encodeWith, Encoder.encodeWith, encodeAll_eq, encodeAll_eq, forM_congr hitems]
    | record i fields =>
      rw [Encoder.encodeWith, Encoder.encodeWith, encodeFields_eq, encodeFields_eq]
      exact bind_congr fun _ => bind_congr fun _ => forM_congr fun p hp => by rw [part p.2 (mem_parts_fields hp)]
    | matchFunction i cs =>
      rw [Encoder.encodeWith, Encoder.encodeWith, encodeCases_eq, encodeCases_eq]
      exact bind_congr fun _ => bind_congr fun _ => forM_congr fun c hc => by
        rw [part c.1 (mem_parts_cases hc).1, part c.2 (mem_parts_cases hc).2]
    | variant i x v | assign i x v => rw [Encoder.encodeWith, Encoder.encodeWith, part v (.head _)]
    | function i l r | apply i l r | scope i l r | access i l r =>
      rw [Encoder.encodeWith, Encoder.encodeWith, part l (.head _), part r (.tail _ (.head _))]
    | binop i op l r =>
      unfold Encoder.encodeWith
      rw [part l (.head _), part r (.tail _ (.head _))]
    | spread i x =>
      unfold Encoder.encodeWith
      rfl
    | closure e c => exact (hnone e c (ht _ .self rfl)).elim
    | link i => rw [Encoder.encodeWith, Encoder.encodeWith, hlinks, hfar _ (hQ _ ht)]
    | _ => rw [Encoder.encodeWith, Encoder.encodeWith]

theorem encodeWithin_alike (hlinks : ∀ t, h'.resolve t = h.resolve t) (hQ : Resolves h Q)
    (hnone : ∀ e c, ¬ Q (.closure e c)) (n : Nat) (ht : t.Leaves Q) :
    Encoder.encodeWithin order h' n t = Encoder.encodeWithin order h n t := by
  induction n generalizing t with
  | zero => rfl
  | succ n ih => exact encodeWith_alike hlinks hQ hnone (fun u hu => ih hu) t ht

theorem serialized_alike (hlinks : ∀ t, h'.resolve t = h.resolve t) (hrounds : h'.rounds = h.rounds)
    (hQ : Resolves h Q) (hnone : ∀ e c, ¬ Q (.closure e c)) (ht : t.Leaves Q) : t.serialized h' = t.serialized h := by
  unfold Term.serialized Term.serializedIn Term.encodeIn
  rw [hrounds, encodeWithin_alike hlinks hQ hnone _ ht]

end Writing

/-! ### Reading -/

section Reading
variable {g : Heap}

/-- The closures and links that a decoder made, if its heap was `g` and its next numbers are `v` now. -/
def New (g : Heap) (v : Nat × Nat) : Term → Prop
  | .closure e _ => g.envs.size ≤ e ∧ e < v.2
  | .link i => g.next ≤ i ∧ i < v.1
  | _ => True

theorem New.mono {u : Nat × Nat} (h1 : v.1 ≤ u.1) (h2 : v.2 ≤ u.2) (ht : New g v t) : New g u t := by
  cases t <;> first | trivial | exact ⟨ht.1, Nat.lt_of_lt_of_le ht.2 ‹_›⟩

/-- Two decoders that read the same bytes into heaps like `g`, with the next numbers `v`. -/
structure ReadAlike (g : Heap) (v : Nat × Nat) (d d' : Decoder) : Prop where
  data : d'.data = d.data
  index : d'.index = d.index
  known : d'.known = d.known
  made : ∀ t ∈ d.known, t.Leaves (New g v)
  next : d.heap.next = v.1 ∧ d'.heap.next = v.1 ∧ g.next ≤ v.1
  size : d.heap.envs.size = v.2 ∧ d'.heap.envs.size = v.2 ∧ g.envs.size ≤ v.2
  knots : d'.heap.knots = d.heap.knots
  links : ∀ i, g.next ≤ i →
    if i < v.1 then (d.heap.resolve (.link i)).Leaves (New g v) else d.heap.resolve (.link i) = .link i
  envs : ∀ e, g.envs.size ≤ e → ∀ p ∈ d.heap.envOf e, p.2.Leaves (New g v)

/-- Decoders side by side; what is known of them are the next numbers. -/
def reading (g : Heap) : Pairing Decoder Decoder where
  Known := Nat × Nat
  le v u := v.1 ≤ u.1 ∧ v.2 ≤ u.2
  refl _ := ⟨Nat.le_refl _, Nat.le_refl _⟩
  trans h1 h2 := ⟨Nat.le_trans h1.1 h2.1, Nat.le_trans h1.2 h2.2⟩
  Meets := ReadAlike g

/-- Both decoders read the same; `ok` holds of it. -/
def Rereads {α : Type} (g : Heap) (w : Nat × Nat) (ok : Nat × Nat → α → Prop) (m : DecodeM α) : Prop :=
  Pace (reading g) (fun _ => False) w (fun a a' v => a' = a ∧ ok v a) m m

abbrev RereadsBytes {α : Type} (g : Heap) (w : Nat × Nat) (m : DecodeM α) : Prop := Rereads g w (fun _ _ => True) m

variable {w : Nat × Nat}

theorem rereads_bytes {α : Type} {m : DecodeM α} (hm : Positional m) : RereadsBytes g w m := by
  rintro v ⟨data, index, known, h⟩ ⟨data', index', known', h'⟩ _ hd
  obtain ⟨rfl, rfl⟩ : data' = data ∧ index' = index := ⟨hd.data, hd.index⟩
  obtain ⟨r, i, -, hm⟩ := hm data' index'
  unfold Twin
  rw [hm, hm]
  cases r with
  | error e => exact .inr rfl
  | ok a => exact ⟨a, _, rfl, v, (reading g).refl v, { hd with index := rfl }, rfl, trivial⟩

theorem leaves_new_mono {u : Nat × Nat} (hv : (reading g).le v u) (ht : t.Leaves (New g v)) : t.Leaves (New g u) :=
  ht.mono fun _ => New.mono hv.1 hv.2

theorem rereads_fresh : Rereads g w (fun v i => g.next ≤ i ∧ i < v.1) fresh := by
  intro v d d' _ hm
  obtain ⟨hn, hn', hle⟩ := hm.next
  have hlater : (reading g).le v (v.1 + 1, v.2) := ⟨Nat.le_succ _, Nat.le_refl _⟩
  refine ⟨_, _, rfl, (v.1 + 1, v.2), hlater, ?_, ?_, ?_, ?_⟩
  · refine { hm with
      made := fun t ht => leaves_new_mono hlater (hm.made t ht)
      next := ⟨by simp [hn], by simp [hn'], by omega⟩
      links := fun i hi => ?_
      envs := fun e he p hp => leaves_new_mono hlater (hm.envs e he p hp) }
    have hl := hm.links i hi
    show if i < v.1 + 1 then (d.heap.resolve (.link i)).Leaves (New g (v.1 + 1, v.2)) else _
    rcases Nat.lt_trichotomy i v.1 with hlt | rfl | hgt
    · rw [if_pos hlt] at hl
      rw [if_pos (Nat.lt_succ_of_lt hlt)]
      exact leaves_new_mono hlater hl
    · rw [if_neg (Nat.lt_irrefl _)] at hl
      rw [if_pos (Nat.lt_succ_self _), hl]
      exact leaves_link.mpr ⟨hi, Nat.lt_succ_self _⟩
    · rw [if_neg (by omega)] at hl
      rwa [if_neg (by omega)]
  · show d'.heap.next = d.heap.next
    rw [hn, hn']
  · show g.next ≤ d.heap.next
    omega
  · show d.heap.next < v.1 + 1
    omega

theorem rereads_register (ht : t.Leaves (New g w)) : RereadsBytes g w (register t) := by
  intro v d d' hv hm
  refine ⟨_, _, rfl, v, (reading g).refl v, { hm with known := ?_, made := fun u hu => ?_ }, ?_, trivial⟩
  · show d'.known.push t = d.known.push t
    rw [hm.known]
  · rcases Array.mem_push.mp hu with hu | rfl
    · exact hm.made u hu
    · exact leaves_new_mono hv ht
  · show d'.known.size = d.known.size
    rw [hm.known]

theorem rereads_reference (i : Int) : Rereads g w (fun v t => t.Leaves (New g v)) (reference i) := by
  refine Pace.get fun v d d' _ hm => ?_
  rw [hm.known]
  dsimp only
  generalize (if i < 0 then i + (d.known.size : Int) else i) = j
  show Rereads g v _ _
  split
  · rename_i t hk
    obtain ⟨-, hk⟩ := Option.ite_none_left_eq_some.mp hk
    exact Pace.pure fun u hu => ⟨rfl, leaves_new_mono hu (hm.made t (Array.mem_of_getElem? hk))⟩
  · exact Pace.throw _

theorem rereads_tie {i n : Nat} (hlt : i < w.1) (ht : t.Leaves (New g w)) :
    RereadsBytes g w
      (modify fun d => { d with known := d.known.setIfInBounds n t, heap := d.heap.tie i t } : DecodeM Unit) := by
  intro v d d' hv hm
  refine ⟨_, _, rfl, v, (reading g).refl v, { hm with
    known := ?_
    made := fun u hu => ?_
    knots := ?_
    links := fun j hj => ?_ }, rfl, trivial⟩
  · show d'.known.setIfInBounds n t = d.known.setIfInBounds n t
    rw [hm.known]
  · rcases Array.mem_or_eq_of_mem_setIfInBounds hu with hu | rfl
    · exact hm.made u hu
    · exact leaves_new_mono hv ht
  · show (i, t) :: d'.heap.knots = (i, t) :: d.heap.knots
    rw [hm.knots]
  · show if j < v.1 then ((d.heap.tie i t).resolve _).Leaves _ else (d.heap.tie i t).resolve _ = _
    rw [Heap.resolve_tie]
    by_cases hji : j = i
    · rw [if_pos hji, if_pos (by have := hv.1; omega)]
      exact leaves_new_mono hv ht
    · rw [if_neg hji]
      exact hm.links j hj

theorem rereads_setEnv (e : Nat) {env : Env} (henv : ∀ p ∈ env, p.2.Leaves (New g w)) :
    RereadsBytes g w (modify fun d => { d with heap := d.heap.setEnv e env } : DecodeM Unit) := by
  intro v d d' hv hm
  obtain ⟨hs, hs', hle⟩ := hm.size
  refine ⟨_, _, rfl, v, (reading g).refl v, { hm with
    size := ⟨by rw [Heap.size_setEnv, hs], by rw [Heap.size_setEnv, hs'], hle⟩
    envs := fun j hj p hp => ?_ }, rfl, trivial⟩
  rcases Heap.mem_envOf_setEnv hp with hp | hp
  · exact leaves_new_mono hv (henv p hp)
  · exact hm.envs j hj p hp

/-- Either decoder reads the number of the closure off its own heap. -/
theorem rereads_opened {code : Term} (hcode : code.Leaves (New g w)) :
    Rereads g w (fun v c => c.Leaves (New g v) ∧ True) (opened code) := by
  intro v d d' hv hm
  obtain ⟨hs, hs', hle⟩ := hm.size
  have hlater : (reading g).le v (v.1, v.2 + 1) := ⟨Nat.le_refl _, Nat.le_succ _⟩
  have hnew : (Term.closure d.heap.envs.size code).Leaves (New g (v.1, v.2 + 1)) :=
    leaves_closure.mpr ⟨⟨by omega, by omega⟩, leaves_new_mono ((reading g).trans hv hlater) hcode⟩
  have hsame : Term.closure d'.heap.envs.size code = .closure d.heap.envs.size code := by rw [hs, hs']
  refine ⟨_, _, rfl, (v.1, v.2 + 1), hlater, { hm with
    known := ?_
    made := fun t ht => ?_
    size := ⟨by simp [Heap.newClosure, hs], by simp [Heap.newClosure, hs'], by omega⟩
    links := fun i hi => ?_
    envs := fun e he p hp => leaves_new_mono hlater (hm.envs e he p ((Heap.mem_envOf_push hp).resolve_left (by simp))) },
    hsame, hnew, trivial⟩
  · show d'.known.push (.closure d'.heap.envs.size code) = d.known.push _
    rw [hm.known, hsame]
  · rcases Array.mem_push.mp ht with ht | rfl
    · exact leaves_new_mono hlater (hm.made t ht)
    · exact hnew
  · have hl := hm.links i hi
    by_cases hiv : i < v.1
    · rw [if_pos hiv] at hl
      exact (if_pos hiv).mpr (leaves_new_mono hlater hl)
    · rw [if_neg hiv] at hl
      exact (if_neg hiv).mpr hl

/-- Reading the same bytes twice. -/
def rereading (g : Heap) : Tracking where
  Known := Nat × Nat
  le := (reading g).le
  trans := (reading g).trans
  Holds := Rereads g
  later := Pace.later
  bind hm hf := Pace.bind hm fun _ a v hv ⟨ha, hok⟩ => ha ▸ hf v a hv (ha ▸ hok)
  pure h := Pace.pure fun v hv => ⟨rfl, h v hv⟩
  throw := Pace.throw
  bytes := rereads_bytes
  term v t := t.Leaves (New g v)
  link v i := g.next ≤ i ∧ i < v.1
  env _ _ := True
  grows hv := ⟨fun _ => leaves_new_mono hv, fun _ hi => ⟨hi.1, Nat.lt_of_lt_of_le hi.2 hv.1⟩, fun _ he => he⟩
  whole := leaves_of_parts
  fresh := rereads_fresh
  reference := rereads_reference
  register hi := rereads_register (leaves_link.mpr hi)
  tie _ hi ht := rereads_tie hi.2 ht
  opened := rereads_opened
  setEnv _ hbs := rereads_setEnv _ hbs

theorem rereads_decode (fuel : Nat) : Rereads g w (fun v t => t.Leaves (New g v)) (decode fuel) :=
  (rereading g).decode fuel

end Reading

end Scrap.Wire
