import Mathlib.Data.Finset.Card
import Scrap.Proofs.Wire.Positions

/-! # How many levels a term can have

A text of negative length leads a decoder back, and a term can start there inside itself. There are twice as many
positions with a byte as bytes. A decoder that comes to one of them again inside has more numbered terms, which does
not keep it from going the same way: it never comes to an end. -/

namespace Scrap.Wire

open Decoder

variable {one one' : DecodeM Term → DecodeM Term} {n : Nat} {t t' : Term} {d₁ d2 d3 d : Decoder}

/-- The terms that get numbers. -/
def takesNumber : Term → Bool
  | .link _ | .list _ _ | .closure _ _ => true
  | _ => false

def isVariable : Term → Bool
  | .var _ _ => true
  | _ => false

/-- All that a decoder ever asks of a term. -/
def SameKind (t t' : Term) : Prop := isCode t = isCode t' ∧ isVariable t = isVariable t'

theorem sameKind_of_numbered (h : takesNumber t = true) (h' : takesNumber t' = true) : SameKind t t' := by
  unfold takesNumber at h h'
  constructor <;> split at h <;> split at h' <;> first | rfl | contradiction

/-- Only lists and closures have numbers. -/
def Numbered (d : Decoder) : Prop := ∀ t ∈ d.known, takesNumber t = true

/-- A later decoder of the same bytes. -/
structure Onward (d d' : Decoder) : Prop where
  data : d'.data = d.data
  known : d.known.size ≤ d'.known.size
  numbered : Numbered d'

/-- A decoder at the same position that knows more terms. -/
structure Wider (d d' : Decoder) : Prop extends Onward d d' where
  index : d'.index = d.index

theorem Onward.trans (h : Onward d₁ d2) (h' : Onward d2 d3) : Onward d₁ d3 :=
  ⟨h'.data.trans h.data, Nat.le_trans h.known h'.known, h'.numbered⟩

theorem Wider.trans (h : Wider d₁ d2) (h' : Wider d2 d3) : Wider d₁ d3 :=
  ⟨h.toOnward.trans h'.toOnward, h'.index.trans h.index⟩

theorem Wider.refl (h : Numbered d) : Wider d d := ⟨⟨rfl, Nat.le_refl _, h⟩, rfl⟩

theorem Numbered.push (h : Numbered d) (ht : takesNumber t = true) : ∀ t' ∈ d.known.push t, takesNumber t' = true := by
  intro t' ht'
  rcases Array.mem_push.1 ht' with ht' | rfl
  · exact h t' ht'
  · exact ht

theorem Numbered.set (h : Numbered d) (ht : takesNumber t = true) (k : Nat) :
    ∀ t' ∈ d.known.setIfInBounds k t, takesNumber t' = true := by
  intro t' ht'
  rcases Array.mem_or_eq_of_mem_setIfInBounds ht' with ht' | rfl
  · exact h t' ht'
  · exact ht

/-- Reads a term of at most so many levels, but does not move if it has more. -/
def probe (n : Nat) : DecodeM Term := fun d =>
  match outcome (decode n) d with
  | (.error .outOfFuel, _) => (.error .outOfFuel, d)
  | r => r

theorem outcome_probe (n : Nat) (d : Decoder) : Exhausts (decode n) d ∧ outcome
    (probe n) d = (.error .outOfFuel, d) ∨ ¬Exhausts (decode n) d ∧ outcome (probe n) d = outcome (decode n) d := by
  unfold Exhausts
  show _ ∧ probe n d = _ ∨ _ ∧ probe n d = _
  unfold probe
  split
  · rename_i h
    rw [h]
    exact .inl ⟨rfl, rfl⟩
  · rename_i h
    exact .inr ⟨fun he => h _ (Prod.ext he rfl), rfl⟩

/-- What the first computation does with so many levels, the second does from wider decoders with however many it has,
unless they are too few. Where they are too few for the first, it has asked for a term that is too deep, and the second
asks for one there too. -/
structure Lifts {α : Type} (n : Nat) (post : α → α → Prop) (m m' : DecodeM Term → DecodeM α) : Prop where
  agrees : ∀ {d}, Numbered d → Exhausts (m (decode n)) d ∧ Exhausts (m (probe n)) d ∨
    outcome (m (decode n)) d = outcome (m (probe n)) d
  settles : ∀ {d}, Numbered d → ¬Exhausts (m (decode n)) d →
    ∀ q, Exhausts (m (decode q)) d ∨ outcome (m (decode q)) d = outcome (m (decode n)) d
  returns : ∀ {d a u}, Numbered d → outcome (m (decode n)) d = (.ok a, u) → Onward d u ∧
    ∀ {x}, Wider d x → ∃ b v, Wider u v ∧ post a b ∧
      ∀ q, Exhausts (m' (decode q)) x ∨ outcome (m' (decode q)) x = (.ok b, v)
  exhausted : ∀ {d u}, Numbered d → outcome (m (probe n)) d = (.error .outOfFuel, u) →
    Onward d u ∧ Exhausts (decode n) u ∧
      ∀ {x}, Wider d x → ∃ v, Wider u v ∧ ∀ q, Exhausts (decode q) v → Exhausts (m' (decode q)) x

section Lifts
variable {α β : Type} {post : α → α → Prop} {post' : β → β → Prop} {m m' : DecodeM Term → DecodeM α}

namespace Lifts

variable {a : α}

theorem post_self (hm : Lifts n post m m') {u : Decoder}
    (hd : Numbered d) (h : outcome (m (decode n)) d = (.ok a, u)) : Numbered u ∧ ∃ b, post a b := by
  obtain ⟨hu, hwide⟩ := hm.returns hd h
  obtain ⟨b, -, -, hab, -⟩ := hwide (.refl hd)
  exact ⟨hu.numbered, b, hab⟩

theorem bind {f f' : α → DecodeM Term → DecodeM β} (hm : Lifts n post m m')
    (hf : ∀ a b, post a b → Lifts n post' (f a) (f' b)) :
    Lifts n post' (fun one => m one >>= fun a => f a one) (fun one => m' one >>= fun b => f' b one) where
  agrees {d} hd := by
    rcases hm.agrees hd with ⟨h, h'⟩ | h
    · exact .inl ⟨h.bind, h'.bind⟩
    rcases hn : outcome (m (decode n)) d with ⟨e | a, u⟩
    · refine .inr ?_
      rw [outcome_bind, outcome_bind, ← h, hn]
    · obtain ⟨hu, b, hab⟩ := hm.post_self hd hn
      unfold Exhausts
      rw [bind_ok hn, bind_ok (h.symm.trans hn)]
      exact (hf a b hab).agrees hu
  settles {d} hd h q := by
    rcases hm.settles hd (fun he => h he.bind) q with he | he
    · exact .inl he.bind
    rcases hn : outcome (m (decode n)) d with ⟨e | a, u⟩
    · refine .inr ?_
      rw [outcome_bind, outcome_bind, he, hn]
    · obtain ⟨hu, b, hab⟩ := hm.post_self hd hn
      unfold Exhausts at h ⊢
      rw [bind_ok hn] at h ⊢
      rw [bind_ok (he.trans hn)]
      exact (hf a b hab).settles hu h q
  returns {d c u} hd h := by
    obtain ⟨a, u1, ha, h⟩ := bind_returns h
    obtain ⟨hu1, hwide⟩ := hm.returns hd ha
    obtain ⟨-, b0, hab0⟩ := hm.post_self hd ha
    refine ⟨hu1.trans ((hf a b0 hab0).returns hu1.numbered h).1, fun {x} hx => ?_⟩
    obtain ⟨b, v1, hv1, hab, hm'⟩ := hwide hx
    obtain ⟨c', v, hv, hc, hf'⟩ := ((hf a b hab).returns hu1.numbered h).2 hv1
    refine ⟨c', v, hv, hc, fun q => ?_⟩
    rcases hm' q with he | he
    · exact .inl he.bind
    · unfold Exhausts
      rw [bind_ok he]
      exact hf' q
  exhausted {d u} hd h := by
    rw [outcome_bind] at h
    rcases hp : outcome (m (probe n)) d with ⟨e | a, u1⟩ <;> rw [hp] at h
    · cases h
      obtain ⟨hu, hdeep, hwide⟩ := hm.exhausted hd hp
      refine ⟨hu, hdeep, fun hx => ?_⟩
      obtain ⟨v, hv, hm'⟩ := hwide hx
      exact ⟨v, hv, fun q hq => (hm' q hq).bind⟩
    · have hn : outcome (m (decode n)) d = (.ok a, u1) := by
        rcases hm.agrees hd with ⟨-, h'⟩ | h'
        · rw [Exhausts, hp] at h'
          cases h'
        · exact h'.trans hp
      obtain ⟨hu1, hwide⟩ := hm.returns hd hn
      obtain ⟨-, b0, hab0⟩ := hm.post_self hd hn
      obtain ⟨hu, hdeep, -⟩ := (hf a b0 hab0).exhausted hu1.numbered h
      refine ⟨hu1.trans hu, hdeep, fun hx => ?_⟩
      obtain ⟨b, v1, hv1, hab, hm'⟩ := hwide hx
      obtain ⟨v, hv, hf'⟩ := ((hf a b hab).exhausted hu1.numbered h).2.2 hv1
      refine ⟨v, hv, fun q hq => ?_⟩
      rcases hm' q with he | he
      · exact he.bind
      · unfold Exhausts
        rw [bind_ok he]
        exact hf' q hq

theorem leaf {m m' : DecodeM α} (hm : ∀ d, ¬Exhausts m d)
    (h : ∀ {d a u}, Numbered d → outcome m d = (.ok a, u) →
      Onward d u ∧ ∀ {x}, Wider d x → ∃ b v, Wider u v ∧ post a b ∧ outcome m' x = (.ok b, v)) :
    Lifts n post (fun _ => m) (fun _ => m') where
  agrees _ := .inr rfl
  settles _ _ _ := .inr rfl
  returns hd ha := by
    obtain ⟨hu, hwide⟩ := h hd ha
    refine ⟨hu, fun hx => ?_⟩
    obtain ⟨b, v, hv, hab, hm'⟩ := hwide hx
    exact ⟨b, v, hv, hab, fun _ => .inr hm'⟩
  exhausted {d u} _ he := absurd (congrArg Prod.fst he) (hm d)

theorem pure {b : α} (h : post a b) : Lifts n post (fun _ => Pure.pure a) (fun _ => Pure.pure b) := by
  refine .leaf (fun _ => nofun) fun hd ha => ?_
  cases ha
  exact ⟨⟨rfl, Nat.le_refl _, hd⟩, fun hx => ⟨b, _, hx, h, rfl⟩⟩

theorem throw {e : DecodeError} (he : e ≠ .outOfFuel) : Lifts n post (fun _ => throw e) m' where
  agrees _ := .inr rfl
  settles _ _ _ := .inr rfl
  returns _ h := nomatch h
  exhausted _ h := absurd (Except.error.inj (congrArg Prod.fst h)) he

theorem modify {g g' : Decoder → Decoder} (hg : ∀ {d}, Numbered d → Onward d (g d))
    (hg' : ∀ {d x}, Wider d x → Wider (g d) (g' x)) :
    Lifts n (fun _ _ => True) (fun _ => modify g) (fun _ => modify g') := by
  refine .leaf (fun _ => nofun) fun hd ha => ?_
  cases ha
  exact ⟨hg hd, fun hx => ⟨(), _, hg' hx, trivial, rfl⟩⟩

end Lifts

theorem lifts_positional {m : DecodeM α} (hm : Positional m) : Lifts n Eq (fun _ => m) (fun _ => m) := by
  refine .leaf hm.shallow fun {d a u} hd ha => ?_
  obtain ⟨r, i, -, hm⟩ := hm d.data d.index
  have ho := hm d.known d.heap
  rw [show (⟨d.data, d.index, d.known, d.heap⟩ : Decoder) = d from rfl, ha] at ho
  obtain ⟨rfl, rfl⟩ := Prod.mk.inj ho
  refine ⟨⟨rfl, Nat.le_refl _, hd⟩, fun {x} hx => ⟨a, { x with index := i }, ?_, rfl, ?_⟩⟩
  · exact ⟨⟨hx.data, hx.known, hx.numbered⟩, rfl⟩
  · have hox := hm x.known x.heap
    rw [← hx.data, ← hx.index] at hox
    exact hox

theorem lifts_fresh : Lifts n (fun _ _ => True) (fun _ => fresh) (fun _ => fresh) := by
  refine .leaf (fun _ => nofun) fun hd ha => ?_
  cases ha
  refine ⟨⟨rfl, Nat.le_refl _, hd⟩, fun {x} hx => ⟨x.heap.next, _, ?_, trivial, rfl⟩⟩
  exact ⟨⟨hx.data, hx.known, hx.numbered⟩, hx.index⟩

theorem lifts_register (ht : takesNumber t = true) (ht' : takesNumber t' = true) :
    Lifts n (fun _ _ => True) (fun _ => register t) (fun _ => register t') := by
  refine .leaf (fun _ => nofun) fun {d a u} hd ha => ?_
  cases ha
  refine ⟨⟨rfl, ?_, hd.push ht⟩, fun {x} hx => ⟨x.known.size, { x with known := x.known.push t' }, ?_, trivial, rfl⟩⟩
  · simp
  · exact ⟨⟨hx.data, by simp [hx.known], hx.numbered.push ht'⟩, hx.index⟩

theorem lifts_opened (code code' : Term) : Lifts n
    (fun c c' => takesNumber c = true ∧ takesNumber c' = true) (fun _ => opened code) (fun _ => opened code') := by
  refine .leaf (fun _ => nofun) fun {d a u} hd ha => ?_
  cases ha
  refine ⟨⟨rfl, by simp, hd.push rfl⟩, fun {x} hx => ⟨.closure x.heap.envs.size code', { x with
    known := x.known.push (.closure x.heap.envs.size code')
    heap := (x.heap.newClosure [] code').2 }, ?_, ⟨rfl, rfl⟩, rfl⟩⟩
  exact ⟨⟨hx.data, by simp [hx.known], hx.numbered.push rfl⟩, hx.index⟩

theorem lifts_flag (found wanted : Bool) :
    Lifts n (fun _ _ => True) (fun _ => flag found wanted) (fun _ => flag found wanted) := by
  unfold flag
  split
  · exact .pure trivial
  · exact .throw (e := .badFlag) nofun

theorem lifts_reference (i : Int) : Lifts n SameKind (fun _ => reference i) (fun _ => reference i) := by
  refine .leaf (still_reference i).shallow fun {d a u} hd ha => ?_
  rcases reference_eq d i with ⟨⟨t, ht, ho⟩, hlow, hhigh⟩ | ⟨ho, -⟩ <;> rw [ho] at ha <;> cases ha
  refine ⟨⟨rfl, Nat.le_refl _, hd⟩, fun {x} hx => ?_⟩
  have hsize := hx.known
  rcases reference_eq x i with ⟨⟨t', ht', ho'⟩, -⟩ | ⟨-, hout⟩
  · exact ⟨t', x, hx, sameKind_of_numbered (hd _ ht) (hx.numbered t' ht'), ho'⟩
  · omega

theorem lifts_repeated (hm : Lifts n post m m') (count : Nat) :
    Lifts n (fun _ _ => True) (fun one => repeated (m one) count) (fun one => repeated (m' one) count) := by
  induction count with
  | zero => exact .pure trivial
  | succ count ih => exact hm.bind fun _ _ _ => ih.bind fun _ _ _ => .pure trivial

theorem lifts_flat {m : DecodeM α} (hm : Positional m) (flagged : Bool) {f : Nat → α → Term}
    (hf : ∀ i j a, SameKind (f i a) (f j a)) :
    Lifts n SameKind (fun _ => flag flagged false >>= fun _ => fresh >>= fun i => m >>= fun a => pure (f i a))
      (fun _ => flag flagged false >>= fun _ => fresh >>= fun i => m >>= fun a => pure (f i a)) := by
  refine (lifts_flag _ _).bind fun _ _ _ => lifts_fresh.bind fun _ _ _ => (lifts_positional hm).bind ?_
  rintro a _ rfl
  exact .pure (hf _ _ _)

section Nodes
variable (h : Lifts n SameKind one one')
include h

theorem lifts_field : Lifts n (fun _ _ => True) (fun o => field (one o)) (fun o => field (one' o)) := by
  refine (lifts_positional positional_readString).bind ?_
  rintro k _ rfl
  exact h.bind fun _ _ _ => .pure trivial

theorem lifts_branch : Lifts n (fun _ _ => True) (fun o => branch (one o)) (fun o => branch (one' o)) :=
  h.bind fun _ _ _ => h.bind fun _ _ _ => .pure trivial

theorem lifts_captured (flagged : Bool) {code code' : Term} (hcode : SameKind code code') :
    Lifts n SameKind (fun o => captured (one o) flagged code) (fun o => captured (one' o) flagged code') := by
  simp only [captured_eq]
  refine (lifts_positional positional_readShort).bind ?_
  rintro count _ rfl
  rw [hcode.1]
  split
  · exact .throw (e := .notCode) nofun
  refine (lifts_flag _ _).bind fun _ _ _ => (lifts_opened _ _).bind fun c c' hc =>
    (lifts_repeated (lifts_field h) _).bind fun _ _ _ => (Lifts.modify ?_ ?_).bind fun _ _ _ =>
      .pure (sameKind_of_numbered hc.1 hc.2)
  · intro d hd
    exact ⟨rfl, Nat.le_refl _, hd⟩
  · intro d x hx
    exact ⟨⟨hx.data, hx.known, hx.numbered⟩, hx.index⟩

theorem lifts_node (flagged : Bool) (tag : Tag) :
    Lifts n SameKind (fun o => node (one o) flagged tag) (fun o => node (one' o) flagged tag) := by
  cases tag with
  | reference =>
    refine (lifts_positional positional_readShort).bind ?_
    rintro i _ rfl
    exact lifts_reference i
  | list =>
    refine (lifts_positional positional_readShort).bind ?_
    rintro count _ rfl
    refine (lifts_flag _ _).bind fun _ _ _ => lifts_fresh.bind fun _ _ _ => (lifts_register rfl rfl).bind
      fun _ _ _ => (lifts_repeated h _).bind fun _ _ _ => (Lifts.modify ?_ ?_).bind fun _ _ _ => .pure ⟨rfl, rfl⟩
    · intro d hd
      exact ⟨rfl, by simp, hd.set rfl _⟩
    · intro d x hx
      exact ⟨⟨hx.data, by simp [hx.known], hx.numbered.set rfl _⟩, hx.index⟩
  | closure => exact h.bind fun _ _ hcode => lifts_captured h _ hcode
  | spread => exact lifts_fresh.bind fun _ _ _ => .pure ⟨rfl, rfl⟩
  | namedSpread =>
    exact lifts_fresh.bind fun _ _ _ => (lifts_positional positional_readString).bind fun _ _ _ => .pure ⟨rfl, rfl⟩
  | short => exact lifts_flat positional_readShort flagged fun _ _ _ => ⟨rfl, rfl⟩
  | long => exact lifts_flat positional_readLong flagged fun _ _ _ => ⟨rfl, rfl⟩
  | string | var => exact lifts_flat positional_readString flagged fun _ _ _ => ⟨rfl, rfl⟩
  | record =>
    refine (lifts_flag _ _).bind fun _ _ _ => (lifts_positional positional_readShort).bind ?_
    rintro count _ rfl
    exact (lifts_repeated (lifts_field h) _).bind fun _ _ _ => lifts_fresh.bind fun _ _ _ => .pure ⟨rfl, rfl⟩
  | variant =>
    exact (lifts_flag _ _).bind fun _ _ _ => (lifts_positional positional_readString).bind fun _ _ _ =>
      lifts_fresh.bind fun _ _ _ => h.bind fun _ _ _ => .pure ⟨rfl, rfl⟩
  | function | apply | scope | access =>
    exact (lifts_flag _ _).bind fun _ _ _ => h.bind fun _ _ _ => lifts_fresh.bind fun _ _ _ => h.bind fun _ _ _ =>
      .pure ⟨rfl, rfl⟩
  | matchFunction =>
    refine (lifts_flag _ _).bind fun _ _ _ => (lifts_positional positional_readShort).bind ?_
    rintro count _ rfl
    exact (lifts_repeated (lifts_branch h) _).bind fun _ _ _ => lifts_fresh.bind fun _ _ _ => .pure ⟨rfl, rfl⟩
  | bytes =>
    refine (lifts_flag _ _).bind fun _ _ _ => (lifts_positional positional_readShort).bind ?_
    rintro size _ rfl
    exact lifts_fresh.bind fun _ _ _ => (lifts_positional (positional_read size)).bind fun _ _ _ => .pure ⟨rfl, rfl⟩
  | float =>
    refine (lifts_flag _ _).bind fun _ _ _ => (lifts_positional (positional_read 8)).bind ?_
    rintro bs _ rfl
    split
    · exact lifts_fresh.bind fun _ _ _ => .pure ⟨rfl, rfl⟩
    · exact .throw (e := .cutFloat) nofun
  | hole => exact (lifts_flag _ _).bind fun _ _ _ => lifts_fresh.bind fun _ _ _ => .pure ⟨rfl, rfl⟩
  | assign =>
    refine (lifts_flag _ _).bind fun _ _ _ => h.bind fun name name' hname => h.bind fun value value' _ => ?_
    cases name with
    | var i x =>
      cases name' with
      | var j y => exact lifts_fresh.bind fun _ _ _ => .pure ⟨rfl, rfl⟩
      | _ => exact absurd hname.2 nofun
    | _ => exact .throw (e := .notAVariable) nofun
  | binop =>
    refine (lifts_flag _ _).bind fun _ _ _ => (lifts_positional positional_readString).bind ?_
    rintro s _ rfl
    cases BinaryOp.ofSymbol? s with
    | none => exact .throw (e := .unknownOperator s) nofun
    | some op => exact h.bind fun _ _ _ => lifts_fresh.bind fun _ _ _ => h.bind fun _ _ _ => .pure ⟨rfl, rfl⟩

end Nodes

def tagged (one : DecodeM Term) : DecodeM Term := do
  let b ← readByte
  match Tag.ofByte? (b &&& 0x7f) with
  | none => throw (.unknownTag (b &&& 0x7f))
  | some tag => node one (128 ≤ b.toNat) tag

theorem lifts_tagged (h : Lifts n SameKind one one') :
    Lifts n SameKind (fun o => tagged (one o)) (fun o => tagged (one' o)) := by
  refine (lifts_positional positional_readByte).bind ?_
  rintro b _ rfl
  cases Tag.ofByte? (b &&& 0x7f) with
  | none => exact .throw (e := .unknownTag (b &&& 0x7f)) nofun
  | some tag => exact lifts_node h _ tag

theorem lifts_one (n : Nat) : Lifts n SameKind (fun one => one) (fun one => one) := by
  have hagrees : ∀ {n d},
      Exhausts (decode n) d ∧ Exhausts (probe n) d ∨ outcome (decode n) d = outcome (probe n) d := by
    intro n d
    rcases outcome_probe n d with ⟨h, hp⟩ | ⟨-, hp⟩
    · exact .inl ⟨h, by rw [Exhausts, hp]⟩
    · exact .inr hp.symm
  have hexhausted : ∀ {n d u}, Numbered d → outcome (probe n) d = (.error .outOfFuel, u) →
      Onward d u ∧ Exhausts (decode n) u ∧
        ∀ {x}, Wider d x → ∃ v, Wider u v ∧ ∀ q, Exhausts (decode q) v → Exhausts (decode q) x := by
    intro n d u hd h
    rcases outcome_probe n d with ⟨he, hp⟩ | ⟨hne, hp⟩
    · rw [hp] at h
      cases h
      exact ⟨⟨rfl, Nat.le_refl _, hd⟩, he, fun {x} hx => ⟨x, hx, fun _ hq => hq⟩⟩
    · exact absurd (congrArg Prod.fst (hp.symm.trans h)) hne
  induction n with
  | zero =>
    refine ⟨fun _ => hagrees, fun _ h => absurd rfl h, fun _ h => ?_, hexhausted⟩
    cases h
  | succ n ih =>
    have hstep := lifts_tagged ih
    refine ⟨fun _ => hagrees, fun hd h q => ?_, fun hd h => ?_, hexhausted⟩
    · cases q with
      | zero => exact .inl rfl
      | succ q => exact hstep.settles hd h q
    · obtain ⟨hu, hwide⟩ := hstep.returns hd h
      refine ⟨hu, fun hx => ?_⟩
      obtain ⟨b, v, hv, hab, hm'⟩ := hwide hx
      refine ⟨b, v, hv, hab, fun q => ?_⟩
      cases q with
      | zero => exact .inl rfl
      | succ q => exact hm' q

end Lifts

/-! ### Coming back to a position -/

/-- From each decoder that is wider than the first, a term is read by way of one that is wider than the second. -/
structure Leads (d u : Decoder) : Prop where
  byte : -(d.data.size : Int) ≤ d.index ∧ d.index < d.data.size
  onward : Onward d u
  wider : ∀ {x}, Wider d x → ∃ v, Wider u v ∧ ∀ q, Exhausts (decode q) v → Exhausts (decode (q + 1)) x

theorem leads_of_exhausts (hd : Numbered d) (h : Exhausts (decode (n + 1)) d) :
    ∃ u, Exhausts (decode n) u ∧ Leads d u := by
  have hlift := lifts_tagged (lifts_one n)
  have hp : Exhausts (tagged (probe n)) d := by
    rcases hlift.agrees hd with ⟨-, hp⟩ | hp
    · exact hp
    · exact (congrArg Prod.fst hp).symm.trans h
  obtain ⟨honward, hdeep, hwider⟩ := hlift.exhausted hd (Prod.ext hp rfl)
  obtain ⟨b, d₁, hb, -⟩ := (exhausts_bind (show Exhausts (readByte >>= _) d from h)).resolve_left
    (positional_readByte.shallow d)
  exact ⟨_, hdeep, (readByte_returns hb).2, honward, hwider⟩

/-- Terms inside each other, from a term that is too deep down to where its levels are used up. -/
theorem exists_descent (hd : Numbered d) (h : Exhausts (decode n) d) :
    ∃ c : Nat → Decoder, c 0 = d ∧ ∀ k < n, Leads (c k) (c (k + 1)) := by
  induction n generalizing d with
  | zero => exact ⟨fun _ => d, rfl, nofun⟩
  | succ n ih =>
    obtain ⟨u, hu, hlead⟩ := leads_of_exhausts hd h
    obtain ⟨c, rfl, hc⟩ := ih hlead.onward.numbered hu
    refine ⟨fun k => k.casesOn d c, rfl, fun k hk => ?_⟩
    cases k with
    | zero => exact hlead
    | succ k => exact hc k (Nat.lt_of_succ_lt_succ hk)

section Descent
variable {c : Nat → Decoder} (hc : ∀ k < n, Leads (c k) (c (k + 1))) {i j : Nat} {x : Decoder}
include hc

theorem descent_onward (hij : i < j) (hj : j ≤ n) : Onward (c i) (c j) := by
  induction j with
  | zero => omega
  | succ j ih =>
    have hstep := (hc j hj).onward
    rcases Nat.lt_succ_iff_lt_or_eq.1 hij with hlt | rfl
    · exact (ih hlt (Nat.le_of_succ_le hj)).trans hstep
    · exact hstep

/-- More steps than there are positions come back to a position. -/
theorem descent_repeats (hn : 2 * (c 0).data.size < n) : ∃ i j, i < j ∧ j < n ∧ (c j).index = (c i).index := by
  have hsize : ∀ k < n, (c k).data.size = (c 0).data.size := by
    intro k hk
    rcases Nat.eq_zero_or_pos k with rfl | hpos
    · rfl
    · rw [(descent_onward hc hpos (Nat.le_of_lt hk)).data]
  have hbound : ∀ k < n, 0 ≤ (c k).index + (c 0).data.size ∧ (c k).index < (c 0).data.size := by
    intro k hk
    have hbyte := (hc k hk).byte
    rw [hsize k hk] at hbyte
    omega
  -- positions from `-size` to `size` are moved to natural numbers below `2 * size`
  obtain ⟨i, hi, j, hj, hne, heq⟩ := Finset.exists_ne_map_eq_of_card_lt_of_maps_to
    (s := Finset.range n) (t := Finset.range (2 * (c 0).data.size))
    (f := fun k => ((c k).index + (c 0).data.size).toNat) (by simpa using hn) (by
      intro k hk
      have := hbound k (Finset.mem_range.1 hk)
      simp only [Finset.coe_range, Set.mem_Iio]
      omega)
  have hi' := Finset.mem_range.1 hi
  have hj' := Finset.mem_range.1 hj
  have hbi := hbound i hi'
  have hbj := hbound j hj'
  rcases Nat.lt_or_gt_of_ne hne with hlt | hlt
  · exact ⟨i, j, hlt, hj', by omega⟩
  · exact ⟨j, i, hlt, hi', by omega⟩

theorem exhausts_descent (q k : Nat) (hk : k + q ≤ n) (hx : Wider (c k) x) : Exhausts (decode q) x := by
  induction q generalizing k x with
  | zero => rfl
  | succ q ih =>
    obtain ⟨v, hv, hstep⟩ := (hc k (by omega)).wider hx
    exact hstep q (ih (k + 1) (by omega) hv)

/-- What has come back to a position goes round and round. -/
theorem exhausts_repeats (hij : i < j) (hj : j < n) (hsame : (c j).index = (c i).index) (q k : Nat)
    (hk : k < j) (hx : Wider (c k) x) : Exhausts (decode q) x := by
  induction q generalizing k x with
  | zero => rfl
  | succ q ih =>
    obtain ⟨v, hv, hstep⟩ := (hc k (by omega)).wider hx
    refine hstep q ?_
    rcases Nat.lt_or_eq_of_le (Nat.succ_le_of_lt hk) with hlt | heq
    · exact ih (k + 1) hlt hv
    · -- at the position of step `j` all goes as from step `i`, with more terms known
      have hback : Wider (c i) (c j) := ⟨descent_onward hc hij (Nat.le_of_lt hj), hsame⟩
      rw [show k + 1 = j from heq] at hv
      exact ih i hij (hback.trans hv)

end Descent

/-- Reading a term comes to an end: with enough levels it is always the same. -/
def Ends (d : Decoder) (r : Except DecodeError Term × Decoder) : Prop :=
  r.1 ≠ .error .outOfFuel ∧ ∃ n, ∀ q, n ≤ q → outcome (decode q) d = r

section Ending
variable {d : Decoder} (hd : Numbered d)
include hd

theorem exhausts_of_le {q : Nat} (hq : q ≤ n) (h : Exhausts (decode n) d) : Exhausts (decode q) d := by
  obtain ⟨c, rfl, hc⟩ := exists_descent hd h
  exact exhausts_descent hc q 0 (by omega) (.refl hd)

/-- A term that has more levels than there are positions has no end. -/
theorem exhausts_forever (h : Exhausts (decode (2 * d.data.size + 1)) d) (q : Nat) : Exhausts (decode q) d := by
  obtain ⟨c, rfl, hc⟩ := exists_descent hd h
  obtain ⟨i, j, hij, hj, hsame⟩ := descent_repeats hc (Nat.lt_succ_self _)
  exact exhausts_repeats hc hij hj hsame q 0 (by omega) (.refl hd)

theorem ends_of_settled (h : ¬Exhausts (decode n) d) : Ends d (outcome (decode n) d) := by
  refine ⟨h, n, fun q hq => ?_⟩
  rcases (lifts_one n).settles hd h q with he | he
  · exact absurd (exhausts_of_le hd hq he) h
  · exact he

theorem ends_iff : (∃ r, Ends d r) ↔ ¬Exhausts (decode (2 * d.data.size + 1)) d := by
  constructor
  · rintro ⟨r, hr, n, hn⟩ h
    have hx := exhausts_forever hd h n
    rw [Exhausts, hn n (Nat.le_refl n)] at hx
    exact hr hx
  · intro h
    exact ⟨_, ends_of_settled hd h⟩

/-- What reading comes to, it comes to with more levels than there are positions. -/
theorem Ends.eq_outcome {r : Except DecodeError Term × Decoder} (h : Ends d r) (hn : 2 * d.data.size < n) :
    outcome (decode n) d = r := by
  obtain ⟨hr, m, hm⟩ := h
  have hends := (ends_iff hd).1 ⟨r, hr, m, hm⟩
  have hn' : ¬Exhausts (decode n) d := fun he => hends (exhausts_of_le hd hn he)
  obtain ⟨-, l, hl⟩ := ends_of_settled hd hn'
  rw [← hl (max l m) (Nat.le_max_left l m), hm (max l m) (Nat.le_max_right l m)]

/-- A decoder whose texts have lengths that are not negative comes to an end, and beyond its start. -/
theorem advances_of_walk (hw : Walk.term d.data (2 * d.data.size + 1) d.index ≠ .error .backward) : ¬Exhausts
    (decode (2 * d.data.size + 1)) d ∧ ∀ {n t d'}, outcome (decode n) d = (.ok t, d') → d.index < d'.index := by
  obtain ⟨hclimbs, honward⟩ := @climbs_term d.data _ d.index (Nat.succ_pos (2 * d.data.size)) (by omega)
  have hskims : KeepsUp d.data (decode (2 * d.data.size + 1)) (Walk.term d.data (2 * d.data.size + 1)) :=
    skims_decode _
  have hends : ¬Exhausts (decode (2 * d.data.size + 1)) d := by
    intro h
    rcases hskims.exhausted rfl h with h | h
    · exact hw h
    · exact hclimbs.shallow (Int.le_refl _) h
  refine ⟨hends, fun {n t d'} ht => ?_⟩
  have hn : ¬Exhausts (decode n) d := by
    intro h
    rw [Exhausts, ht] at h
    cases h
  have hsame := ((lifts_one n).settles hd hn (2 * d.data.size + 1)).resolve_left hends
  rcases hskims.returns rfl (hsame.trans ht) with h | ⟨-, _, h, -⟩
  · exact absurd h hw
  · exact honward (Int.le_refl _) h

/-- Reading comes to an end if it does so within twice as many levels as there are bytes; for fewer bytes than
`depth`, `parse` then gives what it comes to. It does if no length of a text on the way is negative, and then it moves
on. A number moves on always, a text by its length after the number that tells it. -/
theorem decode_progress :
    ((∃ r, Ends d r) ↔ ¬Exhausts (decode (2 * d.data.size + 1)) d) ∧
    (d.data.size < depth → ∀ r, Ends d r → d.parse = r) ∧
    (Walk.term d.data (2 * d.data.size + 1) d.index ≠ .error .backward →
      (∃ r, Ends d r) ∧ ∀ n t d', outcome (decode n) d = (.ok t, d') → d.index < d'.index) ∧
    (∀ n d', outcome readShort d = (.ok n, d') → d.index < d'.index) ∧
    ∀ s d', outcome readString d = (.ok s, d') →
      ∃ n d₁, outcome readShort d = (.ok n, d₁) ∧ d.index < d₁.index ∧ d'.index = d₁.index + n := by
  refine ⟨ends_iff hd, fun hsize r hr => ?_, fun hw => ?_, fun n d' h => readShort_advances h, fun s d' h => ?_⟩
  · exact hr.eq_outcome hd (by omega)
  · obtain ⟨hends, hon⟩ := advances_of_walk hd hw
    exact ⟨(ends_iff hd).2 hends, fun n t d' h => hon h⟩
  · obtain ⟨n, d₁, hn, hindex⟩ := readString_returns h
    exact ⟨n, d₁, hn, readShort_advances hn, hindex⟩

end Ending

/-- The bytes of `[#a ()]`. -/
def taggedListBytes : Array UInt8 := #[0xdb, 0x02, 0x23, 0x02, 0x61, 0x28]

theorem taggedList_progress :
    Numbered { data := taggedListBytes } ∧
      Walk.term taggedListBytes (2 * taggedListBytes.size + 1) 0 ≠ .error .backward ∧
      (∃ r, Ends { data := taggedListBytes } r) ∧
      ∀ n t d', outcome (decode n) { data := taggedListBytes } = (.ok t, d') → 0 < d'.index := by
  have hd : Numbered { data := taggedListBytes } := nofun
  have hw : Walk.term taggedListBytes (2 * taggedListBytes.size + 1) 0 ≠ .error .backward := by decide +kernel
  exact ⟨hd, hw, (decode_progress hd).2.2.1 hw⟩

/-- A text of the length -2 is read and leads back to its tag, and a variant that starts so is inside itself. -/
theorem negative_length_leads_back :
    (∃ i, (Decoder.parse { data := #[0x73, 0x03, 0x61, 0x62, 0x63] }).1 = .ok (.string i "")) ∧
      (Decoder.parse { data := #[0x73, 0x03, 0x61, 0x62, 0x63] }).2.index = 0 ∧
      ∀ r, ¬Ends { data := #[0x23, 0x03] } r := by
  refine ⟨⟨_, rfl⟩, rfl, fun r h => ?_⟩
  have hd : Numbered { data := #[0x23, 0x03] } := nofun
  exact (ends_iff hd).1 ⟨r, h⟩ (by decide +kernel)

end Scrap.Wire
