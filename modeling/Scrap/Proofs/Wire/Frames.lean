import Scrap.Proofs.Heap
import Scrap.Proofs.Wire.Tracking

/-! # Reading leaves the heap alone

Reading leaves the environments and links that the heap has; what is read gets new ones. -/

namespace Scrap.Wire

open Decoder

variable {d d' : Decoder} {k n : Nat}

/-- Nothing is lost; the bytes stay as they are, and so do the environments with numbers below `k` and the links below
`n`. -/
structure Framed (k n : Nat) (d d' : Decoder) : Prop where
  data : d'.data = d.data
  size : d.heap.envs.size ≤ d'.heap.envs.size
  next : d.heap.next ≤ d'.heap.next
  envs : ∀ e, e < k → d'.heap.envOf e = d.heap.envOf e
  knots : ∀ i, i < n → d'.heap.resolve (.link i) = d.heap.resolve (.link i)

theorem Framed.trans {d'' : Decoder} (h1 : Framed k n d d') (h2 : Framed k n d' d'') : Framed k n d d'' :=
  ⟨h2.data.trans h1.data, Nat.le_trans h1.size h2.size, Nat.le_trans h1.next h2.next,
    fun e he => (h2.envs e he).trans (h1.envs e he), fun i hi => (h2.knots i hi).trans (h1.knots i hi)⟩

theorem Framed.of_heap (hd : d'.data = d.data) (hh : d'.heap = d.heap) : Framed k n d d' :=
  ⟨hd, Nat.le_of_eq (by rw [hh]), Nat.le_of_eq (by rw [hh]), fun _ _ => by rw [hh], fun _ _ => by rw [hh]⟩

theorem framed_get {α : Type} {f : Decoder → DecodeM α} (hf : ∀ e, Framed k n d (outcome (f e) d).2) :
    Framed k n d (outcome (get >>= f) d).2 :=
  hf d

theorem framed_tie {i : Nat} (hi : n ≤ i) (m : Nat) (t : Term) :
    Framed k n d { d with known := d.known.setIfInBounds m t, heap := d.heap.tie i t } := by
  refine ⟨rfl, Nat.le_refl _, Nat.le_refl _, fun _ _ => rfl, fun j hj => ?_⟩
  show (d.heap.tie i t).resolve (.link j) = _
  rw [Heap.resolve_tie, if_neg (by omega)]

theorem framed_setEnv {e : Nat} (he : k ≤ e) (bs : Env) : Framed k n d { d with heap := d.heap.setEnv e bs } := by
  refine ⟨rfl, Nat.le_of_eq (Heap.size_setEnv _ _ _).symm, Nat.le_refl _, fun j hj => ?_, fun _ _ => rfl⟩
  show (d.heap.setEnv e bs).envOf j = _
  by_cases hsize : e < d.heap.envs.size
  · rw [Heap.envOf_setEnv hsize, if_neg (by omega)]
  · show (d.heap.envs.setIfInBounds e _).getD j [] = _
    rw [Array.setIfInBounds_eq_of_size_le (by omega)]
    rfl

theorem framed_opened (hk : k ≤ d.heap.envs.size) (known : Array Term) :
    Framed k n d { d with known, heap := { d.heap with envs := d.heap.envs.push [] } } := by
  refine ⟨rfl, by simp, Nat.le_refl _, fun e he => ?_, fun _ _ => rfl⟩
  rw [Heap.envOf_push, if_neg (by omega)]

/-- The computations that leave what is below `k` and `n` as it is; the numbers they take are not below. -/
def framing (k n : Nat) : Tracking where
  Known := Unit
  le _ _ := True
  trans _ _ := trivial
  Holds _ ok m := ∀ d : Decoder, k ≤ d.heap.envs.size → n ≤ d.heap.next →
    Framed k n d (outcome m d).2 ∧ ∀ a, (outcome m d).1 = .ok a → ok () a
  later hm _ := hm
  bind hm hf d hk hn := by
    obtain ⟨h1, hok⟩ := hm d hk hn
    rw [outcome_bind]
    rcases ho : outcome _ d with ⟨x | a, d1⟩ <;> rw [ho] at h1 hok
    · exact ⟨h1, nofun⟩
    · obtain ⟨h2, hok2⟩ := hf () a trivial (hok a rfl) d1 (Nat.le_trans hk h1.size) (Nat.le_trans hn h1.next)
      exact ⟨h1.trans h2, hok2⟩
  pure h _ _ _ := ⟨.of_heap rfl rfl, fun _ ha => Except.ok.inj ha ▸ h () trivial⟩
  throw _ _ _ _ := ⟨.of_heap rfl rfl, nofun⟩
  bytes hm d _ _ := by
    obtain ⟨r, i, -, hm⟩ := hm d.data d.index
    rw [show d = ⟨d.data, d.index, d.known, d.heap⟩ from rfl, hm]
    exact ⟨.of_heap rfl rfl, fun _ _ => trivial⟩
  term _ _ := True
  link _ i := n ≤ i
  env _ e := k ≤ e
  grows _ := ⟨fun _ ht => ht, fun _ hi => hi, fun _ he => he⟩
  whole _ _ := trivial
  fresh _ _ hn := ⟨⟨rfl, Nat.le_refl _, Nat.le_succ _, fun _ _ => rfl, fun _ _ => rfl⟩, fun _ ha => Except.ok.inj ha ▸ hn⟩
  reference i d _ _ := by
    refine ⟨framed_get fun e => ?_, fun _ _ => trivial⟩
    dsimp only
    split <;> exact .of_heap rfl rfl
  register _ _ _ _ := ⟨.of_heap rfl rfl, fun _ _ => trivial⟩
  tie m hi _ _ _ _ := ⟨framed_tie hi m _, fun _ _ => trivial⟩
  opened _ _ hk _ := ⟨framed_opened hk _, fun _ ha => ⟨trivial, Except.ok.inj ha ▸ hk⟩⟩
  setEnv he _ _ _ _ := ⟨framed_setEnv he _, fun _ _ => trivial⟩

section Frames
variable {α β : Type} {one : DecodeM Term}

/-- The computation leaves what is below `k` and `n` as it is. -/
abbrev Frames (k n : Nat) (m : DecodeM α) : Prop := (framing k n).Plain () m

theorem Frames.later {m : DecodeM α} (hm : ∀ k n, Frames k n m) {r : Except DecodeError α}
    (ho : outcome m d = (r, d')) : d.heap.Later d'.heap := by
  have hf := (hm _ _ d (Nat.le_refl _) (Nat.le_refl _)).1
  rw [ho] at hf
  exact ⟨hf.next, hf.size, hf.envs, hf.knots⟩

/-- Whatever is known of the results. -/
theorem Frames.of_holds {m : DecodeM α} {ok : Unit → α → Prop} (hm : (framing k n).Holds () ok m) : Frames k n m :=
  fun d hk hn => ⟨(hm d hk hn).1, fun _ _ => trivial⟩

theorem Frames.pure (a : α) : Frames k n (Pure.pure a) := (framing k n).plain a

theorem Frames.bind {m : DecodeM α} {f : α → DecodeM β} (hm : Frames k n m) (hf : ∀ a, Frames k n (f a)) :
    Frames k n (m >>= f) :=
  Tracking.bind _ hm fun _ a _ _ => hf a

theorem frames_fresh : Frames k n fresh := .of_holds (framing k n).fresh

theorem frames_repeated {one : DecodeM α} (h : Frames k n one) (count : Nat) : Frames k n (repeated one count) :=
  .of_holds (Tracking.repeated _ h (fun _ _ _ _ ha => ha) count)

theorem frames_field (h : Frames k n one) : Frames k n (field one) := .of_holds (Tracking.field _ h)

theorem frames_branch (h : Frames k n one) : Frames k n (branch one) := .of_holds (Tracking.branch _ h)

theorem frames_decode (k n fuel : Nat) : Frames k n (decode fuel) := Tracking.decode _ fuel

theorem parse_data {r : Except DecodeError Term} (hp : d.parse = (r, d')) : d'.data = d.data := by
  have hf := (frames_decode 0 0 (depth + d.data.size) d (Nat.zero_le _) (Nat.zero_le _)).1
  rw [show outcome (decode (depth + d.data.size)) d = _ from hp] at hf
  exact hf.data

end Frames

end Scrap.Wire
