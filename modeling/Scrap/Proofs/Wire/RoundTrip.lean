import Scrap.Proofs.Wire.Recovery

/-! # Closures survive being written and read

The encoder numbers a closure before its code, the decoder after it. A closure is read back as what it was exactly if
both orders write the same bytes. -/

namespace Scrap.Wire

open Decoder List

section RoundTrip
variable {h h' : Heap} {t t' : Term} {bs : List UInt8} {d : Decoder}

theorem Keeps.start (hpos : 0 < h'.next) (hknots : ∀ p ∈ h'.knots, p.1 < h'.next) :
    Keeps h t [] [] { data := bs.toArray, heap := h' } where
  originals := rfl
  size := rfl
  stands hp := by simp at hp
  shapes _ hp := by simp at hp
  reached _ hp := by simp at hp
  links hp := by simp at hp
  placed hp := by simp at hp
  positive := hpos
  closures hp := by simp at hp
  knots := hknots
  apart := .nil

theorem ahead_start (bs : List UInt8) (h' : Heap) : Ahead { data := bs.toArray, heap := h' } (bs ++ []) :=
  ⟨0, rfl, by simp, by simp⟩

/-- What is written in the decoder's order is read as a copy. -/
theorem isomorphic_of_serializedIn (hcoh : h.Coherent t) (hpos : 0 < h'.next) (hknots : ∀ p ∈ h'.knots, p.1 < h'.next)
    (hs : t.serializedIn .afterCode h = .ok bs) :
    ∃ t' d, parse { data := bs.toArray, heap := h' } = (.ok t', d) ∧ Isomorphic h t d.heap t' := by
  obtain ⟨K, hw⟩ := serializedIn_eq_ok.mp hs
  obtain ⟨t', d, new, ho, -, hk, -, hf, hpost⟩ := copiesOf_within hcoh h.rounds t [] K bs .root hw
    (depth + bs.toArray.size) (by simp) _ [] [] (Keeps.start hpos hknots) (ahead_start bs h')
  exact ⟨t', d, ho, new, hpost _ _ (.refl _ _), hf, hk.apart⟩

/-- What is read as a copy would be written the same in the decoder's order. -/
theorem serializedIn_of_isomorphic (hpos : 0 < h'.next) (hknots : ∀ p ∈ h'.knots, p.1 < h'.next)
    (hs : t.serialized h = .ok bs) (hparse : parse { data := bs.toArray, heap := h' } = (.ok t', d))
    (hiso : Isomorphic h t d.heap t') : t.serializedIn .afterCode h = .ok bs := by
  obtain ⟨K, hw⟩ := serializedIn_eq_ok.mp hs
  obtain ⟨P, halike, hfill, hP⟩ := hiso
  obtain ⟨-, L, -, hlate, -⟩ := recoversOf_within hfill hP h.rounds t [] K bs .root hw (depth + bs.toArray.size) (by simp)
    [] [] _ [] t' d (by simp) (Keeps.start hpos hknots) (by simp) (ahead_start bs h') hparse (fun _ _ _ => rfl) halike
  exact serializedIn_eq_ok.mpr ⟨L, hlate⟩

/-- A closure that was written is read as a copy of it, with the same names in its environment and with every
reference to the term that it was, exactly if the numbers of its bytes are those of closures numbered after their code. -/
theorem closure_round_trip_iff {e : Nat} {c : Term} (hcoh : h.Coherent (.closure e c)) (hpos : 0 < h'.next)
    (hknots : ∀ p ∈ h'.knots, p.1 < h'.next) (hs : (Term.closure e c).serialized h = .ok bs) :
    (∃ t' d, parse { data := bs.toArray, heap := h' } = (.ok t', d) ∧ Isomorphic h (.closure e c) d.heap t') ↔
      (Term.closure e c).serializedIn .afterCode h = .ok bs :=
  ⟨fun ⟨_, _, hparse, hiso⟩ => serializedIn_of_isomorphic hpos hknots hs hparse hiso,
    isomorphic_of_serializedIn hcoh hpos hknots⟩

end RoundTrip

/-! ### A function that calls itself -/

/-- The code `x -> f x`. -/
def selfCall : Term := .function 11 (.var 12 "x") (.apply 13 (.var 14 "f") (.var 15 "x"))

/-- The closure of `f = x -> f x` is in its own environment. -/
def selfCallHeap : Heap := { next := 16, envs := #[[("f", .closure 0 selfCall)]] }

theorem reaches_selfCall {t : Term} (ht : selfCallHeap.Reaches (.closure 0 selfCall) t) :
    t ∈ [.closure 0 selfCall, selfCall, .var 12 "x", .apply 13 (.var 14 "f") (.var 15 "x"), .var 14 "f", .var 15 "x"] := by
  induction ht with
  | root => exact .head _
  | part _ hu ih =>
    simp only [mem_cons, not_mem_nil, or_false] at ih
    rcases ih with rfl | rfl | rfl | rfl | rfl | rfl <;>
      simp only [selfCall, Term.parts, mem_cons, not_mem_nil, or_false] at hu
    · simp [hu, selfCall]
    · rcases hu with rfl | rfl <;> simp
    · rcases hu with rfl | rfl <;> simp
  | link _ ih => simp [selfCall] at ih
  | value _ hp ih =>
    simp only [selfCall, mem_cons, not_mem_nil, or_false, reduceCtorEq, Term.closure.injEq] at ih
    obtain ⟨rfl, -⟩ := ih
    cases mem_singleton.mp hp
    exact .head _

theorem selfCall_coherent : selfCallHeap.Coherent (.closure 0 selfCall) where
  lists _ ht _ := by
    have := reaches_selfCall ht
    simp [selfCall] at this
  codes ht ht' := by
    have h1 := reaches_selfCall ht
    have h2 := reaches_selfCall ht'
    simp [selfCall] at h1 h2
    rw [h1.2, h2.2]
  functions ht := by
    have := reaches_selfCall ht
    simp [selfCall] at this
    rw [this.2]
    rfl
  fields ht := by
    have := reaches_selfCall ht
    simp [selfCall] at this
  names ht := by
    have := reaches_selfCall ht
    simp [selfCall] at this
    rw [this.1]
    exact nodup_singleton _

/-- The bytes of `f` in `f = x -> f x`. -/
def selfCallBytes : List UInt8 := [227, 102, 118, 2, 120, 32, 118, 2, 102, 118, 2, 120, 2, 2, 102, 114, 0]

/-- A function that calls itself is read back as a function that calls itself. -/
theorem selfCall_round_trip :
    (Term.closure 0 selfCall).serialized selfCallHeap = .ok selfCallBytes ∧
      ∃ t' d, parse { data := selfCallBytes.toArray } = (.ok t', d) ∧
        Isomorphic selfCallHeap (.closure 0 selfCall) d.heap t' := by
  have hs : (Term.closure 0 selfCall).serialized selfCallHeap = .ok selfCallBytes := by decide
  exact ⟨hs, (closure_round_trip_iff selfCall_coherent (by decide) (by simp) hs).mpr (by decide)⟩

/-- The code `| [] -> 0 | [x, ...xs] -> 1 + f xs`. -/
def lengthCode : Term :=
  .matchFunction 11 [(.list 12 [], .int 13 0), (.list 14 [.var 15 "x", .spread 16 (some "xs")],
    .binop 17 .add (.int 18 1) (.apply 19 (.var 20 "f") (.var 21 "xs")))]

/-- The program `$$deserialize ($$serialize f) [7, 8] . f = | [] -> 0 | [x, ...xs] -> 1 + f xs`. -/
def lengthProgram : Term :=
  .scope 22 (.apply 23 (.apply 24 (.native 25 .deserialize) (.apply 26 (.native 27 .serialize) (.var 28 "f")))
    (.list 29 [.int 30 7, .int 31 8])) (.assign 32 "f" lengthCode)

/-- The heap after `f = | [] -> 0 | [x, ...xs] -> 1 + f xs`. -/
def lengthHeap : Heap := { next := 34, envs := #[[("f", .closure 0 lengthCode)], [("f", .closure 0 lengthCode)]] }

/-- The bytes of `f` in `f = | [] -> 0 | [x, ...xs] -> 1 + f xs`. -/
def lengthBytes : List UInt8 :=
  [227, 109, 4, 219, 0, 105, 0, 219, 4, 118, 2, 120, 82, 4, 120, 115, 43, 2, 43, 105, 2, 32, 118, 2, 102, 118,
    4, 120, 115, 2, 2, 102, 227, 109, 4, 114, 2, 105, 0, 114, 4, 43, 2, 43, 105, 2, 32, 118, 2, 102, 118, 4, 120, 115,
    2, 2, 102, 114, 6]

/-- A function with lists in its patterns is read back as another one, which gives a list of two items the length 1. -/
theorem length_round_trip_fails :
    outcome (eval 8 [] (.assign 32 "f" lengthCode)) { heap := { next := 33 } } =
        (.ok (.environment 33 [("f", .closure 1 lengthCode)]), { heap := lengthHeap }) ∧
      (Term.closure 1 lengthCode).serialized lengthHeap = .ok lengthBytes ∧
      (¬ ∃ t' d, parse { data := lengthBytes.toArray, heap := lengthHeap } = (.ok t', d) ∧
        Isomorphic lengthHeap (.closure 1 lengthCode) d.heap t') ∧
      ((outcome (eval 12 [] lengthProgram) { heap := { next := 33 } }).1.toOption.bind Term.int?) = some 1 := by
  have hs : (Term.closure 1 lengthCode).serialized lengthHeap = .ok lengthBytes := by decide
  refine ⟨rfl, hs, ?_, by decide +kernel⟩
  rintro ⟨t', d, hparse, hiso⟩
  exact absurd (serializedIn_of_isomorphic (by decide) (by simp [lengthHeap]) hs hparse hiso) (by decide)

end Scrap.Wire
