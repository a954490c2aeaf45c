import Scrap.Proofs.Wire.RoundTrip
import Scrap.Proofs.Wire.Unshared
import Mathlib.Data.List.Induction

/-! # Terms one after the other

One encoder writes a sequence of terms, one decoder reads them back, whatever bytes follow. No list and no closure may
occur twice, since a closure gets its number at different times in writing and in reading. -/

namespace Scrap

open List

/-- Reads terms one after the other until one cannot be read. -/
def Decoder.parseMany : Nat → Decoder → Except DecodeError (List Term) × Decoder
  | 0, d => (.ok [], d)
  | count + 1, d =>
    match parseMany count d with
    | (.error e, d) => (.error e, d)
    | (.ok ts, d) =>
      match d.parse with
      | (.error e, d) => (.error e, d)
      | (.ok t, d) => (.ok (ts ++ [t]), d)

namespace Wire

open Decoder

variable {h : Heap} {K K' ts' us : List Term} {bs : List UInt8} {t' : Term}

/-- The terms `ts'` of the heap `g` are copies of `ts` in `h`, one by one, under one correspondence of lists and
closures. -/
def IsomorphicAll (h : Heap) (ts : List Term) (g : Heap) (ts' : List Term) : Prop :=
  ∃ pairs : Pairs, AlikeAll h g pairs ts ts' ∧ (∀ p ∈ pairs, Filled h g pairs p) ∧ pairs.Pairwise Apart

section Items
variable {R : Writing} {ts : List Term} {t : Term}

theorem items_append : Items R K (ts ++ us) bs K' ↔
    ∃ b₁ b₂ K1, bs = b₁ ++ b₂ ∧ Items R K ts b₁ K1 ∧ Items R K1 us b₂ K' := by
  induction ts generalizing K bs with
  | nil =>
    constructor
    · exact fun hw => ⟨[], bs, K, rfl, .nil, hw⟩
    · rintro ⟨_, _, _, rfl, ⟨⟩, hw⟩
      exact hw
  | cons t ts ih =>
    constructor
    · rintro (_ | ⟨hw, hws⟩)
      obtain ⟨b₁, b₂, K1, rfl, h1, h2⟩ := ih.mp hws
      exact ⟨_, b₂, K1, (append_assoc _ _ _).symm, .cons hw h1, h2⟩
    · rintro ⟨_, b₂, K1, rfl, _ | ⟨hw, hws⟩, h2⟩
      rw [cons_append, append_assoc]
      exact .cons hw (ih.mpr ⟨_, _, _, rfl, hws, h2⟩)

theorem AlikeAll.snoc {g : Heap} {P : Pairs} (hts : AlikeAll h g P ts ts')
    (ht : Alike h g P t t') : AlikeAll h g P (ts ++ [t]) (ts' ++ [t']) := by
  induction ts generalizing ts' with
  | nil =>
    cases hts
    exact .cons ht .nil
  | cons u us ih =>
    cases hts with
    | cons hu hus => exact .cons hu (ih hus)

end Items

section Sequence
variable {h' : Heap} {ts : List Term} {d : Decoder}

theorem parseMany_succ {n : Nat} {d1 d2 : Decoder} (h1 : parseMany n d = (.ok ts', d1))
    (h2 : d1.parse = (.ok t', d2)) : parseMany (n + 1) d = (.ok (ts' ++ [t']), d2) := by
  simp only [parseMany, h1, h2]

theorem index_of_ahead {rest : List UInt8} (ha : d.Ahead rest) (hd : d.data = (bs ++ rest).toArray) :
    d.index = bs.length := by
  obtain ⟨p, hp, hsize, -⟩ := ha
  rw [hd, size_toArray, length_append] at hsize
  rw [hp]
  omega

/-- The decoder of some bytes has read copies of the terms `us`, the first of `ts`, and stands before `rest`. -/
structure HasRead (h : Heap) (ts us : List Term) (data rest : List UInt8) (us' L : List Term) (Q : Pairs)
    (d : Decoder) : Prop where
  bytes : d.data = data.toArray
  clear : Clear h ts [] us.length L
  keeps : Keeps h (.list 0 ts) L Q d
  ahead : d.Ahead rest
  filled : ∀ p ∈ Q, Filled h d.heap Q p
  alike : AlikeAll h d.heap Q us us'

theorem HasRead.next (hts : h.Unshared ts) {us' L : List Term} {Q : Pairs} {t : Term} {data cs : List UInt8}
    (hr : HasRead h ts us data (bs ++ cs) us' L Q d) (ht : ts[us.length]? = some t) (hK : Clear h ts [] us.length K)
    (hw : WrittenWithin .beforeCode h h.rounds K t bs K') :
    ∃ t' d' L' Q', d.parse = (.ok t', d') ∧ HasRead h ts (us ++ [t]) data cs (us' ++ [t']) L' Q' d' ∧
      Clear h ts [] (us.length + 1) K' := by
  obtain ⟨hb, hafter⟩ := reorders_within hts h.rounds (.root ht) K bs K' hw hK.elsewhere
  obtain ⟨L', hw', hb'⟩ := hafter L hr.clear.elsewhere
  have hlen : bs.length ≤ depth + d.data.size := by
    have := hr.ahead.length_le
    rw [length_append] at this
    omega
  obtain ⟨t', d', new, ho, ha, hk, hl, hf, hpost⟩ := copiesOf_within hts.coherent h.rounds t L L' bs
    (.part .root (mem_of_getElem? ht)) hw' _ hlen d Q cs hr.keeps hr.ahead
  have hc : Carries Q d.heap (Q ++ new) d'.heap := hr.keeps.carries hl
  refine ⟨t', d', L', Q ++ new, ho, ⟨(parse_data ho).trans hr.bytes, ?_, hk, ha, fun p hp => ?_, ?_⟩, hK.next hb⟩
  · rw [length_append]
    exact hr.clear.next hb'
  · rcases mem_append.mp hp with hp | hp
    · refine (hr.filled p hp).mono hc hp fun e c hpc => hl.envs e ?_
      obtain ⟨a, b⟩ := p
      cases hpc
      exact hr.keeps.closures hp
    · exact hf p hp
  · exact (hr.alike.mono hc).snoc (hpost _ _ (.refl _ _))

theorem hasRead_first (rest : List UInt8) (hts : h.Unshared ts) (hpos : 0 < h'.next) (hknots : ∀ p ∈ h'.knots, p.1 < h'.next)
    {vs : List Term} (hsplit : us ++ vs = ts)
    (hw : Items (WrittenWithin .beforeCode h h.rounds) [] us bs K) :
    Clear h ts [] us.length K ∧ ∃ us' d L Q,
      parseMany us.length { data := (bs ++ rest).toArray, heap := h' } = (.ok us', d) ∧
        HasRead h ts us (bs ++ rest) rest us' L Q d := by
  induction us using List.reverseRecOn generalizing bs K vs rest with
  | nil =>
    cases hw
    refine ⟨by simp [Clear], [], _, [], [], rfl, rfl, by simp [Clear], Keeps.start hpos hknots, ?_, by simp, .nil⟩
    exact ⟨0, rfl, by simp, by simp⟩
  | append_singleton us t ih =>
    obtain ⟨b₁, _, K1, rfl, hus, _ | ⟨ht, hnil⟩⟩ := items_append.mp hw
    cases hnil
    rw [append_nil, append_assoc]
    obtain ⟨hK, us', d, L, Q, hparse, hr⟩ := ih _ (show us ++ (t :: vs) = ts by simpa using hsplit) hus
    have hnth : ts[us.length]? = some t := by simp [← hsplit]
    obtain ⟨t', d', L', Q', hparse', hr', hK'⟩ := hr.next hts hnth hK ht
    rw [length_append]
    exact ⟨hK', us' ++ [t'], d', L', Q', parseMany_succ hparse hparse', hr'⟩

/-- A decoder reads back a sequence of terms in which no list or closure occurs twice, whatever bytes follow theirs:
after each call the terms read so far are copies of the first terms, and the position is the number of bytes that were
written for these. -/
theorem parseMany_encoded (hts : h.Unshared ts) {e : Encoder}
    (hs : outcome (ts.forM (Term.encode h)) {} = (.ok (), e)) (rest : List UInt8) (hpos : 0 < h'.next)
    (hknots : ∀ p ∈ h'.knots, p.1 < h'.next) {i : Nat} (hi : i ≤ ts.length) :
    ∃ ts' d first, parseMany i { data := (e.output.toList ++ rest).toArray, heap := h' } = (.ok ts', d) ∧
      IsomorphicAll h (ts.take i) d.heap ts' ∧
      outcome ((ts.take i).forM (Term.encode h)) {} = (.ok (), first) ∧ d.index = first.output.size := by
  have hwrites := fun us : List Term =>
    writes_items us fun t _ => writes_encodeWithin .beforeCode h h.rounds t
  obtain ⟨bs, hw, hout⟩ := (hwrites ts {} e).mp hs
  rw [← take_append_drop i ts] at hw
  obtain ⟨b₁, b₂, K, rfl, hfirst, -⟩ := items_append.mp hw
  obtain ⟨-, ts', d, L, Q, hparse, hr⟩ := hasRead_first (b₂ ++ rest) hts hpos hknots
    (take_append_drop i ts) hfirst
  have hdata : e.output.toList ++ rest = b₁ ++ (b₂ ++ rest) := by simp [hout]
  rw [length_take_of_le hi] at hparse
  refine ⟨ts', d, ⟨K, b₁.toArray⟩, hdata ▸ hparse, ⟨Q, hr.alike, hr.filled, hr.keeps.apart⟩,
    (hwrites _ {} _).mpr ⟨b₁, hfirst, by simp⟩, ?_⟩
  rw [index_of_ahead hr.ahead hr.bytes]
  simp

end Sequence

/-! ### A function over a list, and a list -/

/-- The code `| [] -> 18446744073709551616`. -/
def emptyCase : Term := .matchFunction 11 [(.list 12 [], .int 13 18446744073709551616)]

/-- The heap of a closure whose environment holds a list. -/
def emptyCaseHeap : Heap := { next := 18, envs := #[[("ys", .list 14 [])]] }

/-- The closure, and a list of something that is no number. -/
def closureAndList : List Term := [.closure 0 emptyCase, .list 15 [.float 16 ⟨0x7ff8000000000001⟩]]

theorem occurs_closureAndList {p : List Nat} {t : Term} (ht : emptyCaseHeap.Occurs closureAndList p t) :
    (p, t) ∈ [([0], .closure 0 emptyCase), ([0, 0], emptyCase), ([0, 0, 0], .list 12 []),
      ([1, 0, 0], .int 13 18446744073709551616), ([1, 0], .list 14 []), ([1], .list 15 [.float 16 ⟨0x7ff8000000000001⟩]),
      ([0, 1], .float 16 ⟨0x7ff8000000000001⟩)] := by
  induction ht with
  | @root n t hn =>
    rcases n with _ | _ | n
    · cases hn
      simp
    · cases hn
      simp
    · cases hn
  | @way p t n u _ hn ih =>
    simp only [mem_cons, not_mem_nil, or_false, Prod.mk.injEq] at ih
    rcases ih with ⟨rfl, rfl⟩ | ⟨rfl, rfl⟩ | ⟨rfl, rfl⟩ | ⟨rfl, rfl⟩ | ⟨rfl, rfl⟩ | ⟨rfl, rfl⟩ | ⟨rfl, rfl⟩ <;>
      rcases n with _ | _ | n <;> first | cases hn; simp | cases hn

theorem closureAndList_unshared : emptyCaseHeap.Unshared closureAndList where
  once ht hu hn hs := by
    have h1 := occurs_closureAndList ht
    have h2 := occurs_closureAndList hu
    simp only [mem_cons, not_mem_nil, or_false, Prod.mk.injEq] at h1 h2
    rcases h1 with ⟨rfl, rfl⟩ | ⟨rfl, rfl⟩ | ⟨rfl, rfl⟩ | ⟨rfl, rfl⟩ | ⟨rfl, rfl⟩ | ⟨rfl, rfl⟩ | ⟨rfl, rfl⟩ <;>
      first
      | (cases hn; done)
      | rcases h2 with ⟨rfl, rfl⟩ | ⟨rfl, rfl⟩ | ⟨rfl, rfl⟩ | ⟨rfl, rfl⟩ | ⟨rfl, rfl⟩ | ⟨rfl, rfl⟩ | ⟨rfl, rfl⟩ <;>
          first | rfl | cases hs
  functions ht := by
    have := occurs_closureAndList ht
    simp [emptyCase] at this
    rw [this.2.2]
    rfl
  fields ht := by
    have := occurs_closureAndList ht
    simp [emptyCase] at this
  names ht := by
    have := occurs_closureAndList ht
    simp [emptyCase] at this
    rw [this.2.1]
    exact nodup_singleton _

/-- The bytes of the closure and the list. The closure is numbered before the list in its code by the encoder and after
it by the decoder. -/
def closureAndListBytes : List UInt8 :=
  [227, 109, 2, 219, 0, 108, 4, 0, 0, 0, 0, 0, 0, 0, 0, 2, 0, 0, 0, 0, 0, 0, 0, 2, 4, 121, 115, 219, 0, 219, 2, 100, 1,
    0, 0, 0, 0, 0, 248, 127]

/-- Both are read back, with other bytes behind theirs. -/
theorem closureAndList_parsed :
    ∃ e, outcome (closureAndList.forM (Term.encode emptyCaseHeap)) {} = (.ok (), e) ∧
      e.output.toList = closureAndListBytes ∧
      ∃ ts' d first, parseMany 2 { data := (closureAndListBytes ++ [114, 0]).toArray } = (.ok ts', d) ∧
        IsomorphicAll emptyCaseHeap closureAndList d.heap ts' ∧
        outcome (closureAndList.forM (Term.encode emptyCaseHeap)) {} = (.ok (), first) ∧ d.index = first.output.size := by
  have hs : outcome (closureAndList.forM (Term.encode emptyCaseHeap)) {} =
      (.ok (), ⟨[.closure 0 emptyCase, .list 12 [], .list 14 [], .list 15 [.float 16 ⟨0x7ff8000000000001⟩]],
        closureAndListBytes.toArray⟩) := rfl
  have hpos : 0 < ({} : Heap).next := by decide
  exact ⟨_, hs, rfl, parseMany_encoded closureAndList_unshared hs [114, 0] hpos (by simp) (Nat.le_refl 2)⟩

end Wire

end Scrap
