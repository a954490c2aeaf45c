import Mathlib.Algebra.Order.BigOperators.Group.List
import Mathlib.Algebra.Order.Group.Nat
import Scrap.Proofs.Machine.Layout

/-! # The collector in memory

Memory holds a store when the words of its objects stand one behind the other. A collection of the memory then gives a
memory that holds the collected store. The copies are followed as a list of words: an object that has been copied adds
its words at the end, with the values they had; the scan puts the new words in their places. An object that has been
copied has lost its tag word, but is never looked into again. -/

namespace Scrap.Machine

open List

variable {a b : Nat} {w : Word} {ws : List Word}

namespace Memory

/-! ### Addresses -/

/-- Where functions, constant objects and the other objects of a store stand. -/
structure Layout where
  code : String → Word
  constant : Nat → Nat
  object : Nat → Nat

variable {L : Layout} {s : Store} {m m₀ : Memory} {order new : List Nat} {i j : Nat}

/-- The word in memory for a word of the store. -/
def located (L : Layout) (s : Store) (w : Word) : Word :=
  if s.Moves w then .pointer (L.object (s.index w)) else if w.isPointer then .pointer (L.constant w.target) else w

def span (os : List Object) : Nat := (os.map Object.extent).sum

/-- The words that the objects before a place take. -/
def filled (s : Store) (i : Nat) : Nat := span ((range i).map s.object)

/-- The words of the objects in the places `new`, as the collection finds them. -/
def originals (L : Layout) (s : Store) (new : List Nat) : List Word :=
  new.flatMap fun i => (s.object i).image L.code (located L s)

/-- Where the object in a place is copied to. -/
def newAddress (s : Store) (base : Nat) (order : List Nat) (i : Nat) : Nat :=
  base + span ((order.take (order.idxOf i)).map s.object)

/-- The new word for a word of the store. -/
def redirected (L : Layout) (s : Store) (base : Nat) (order : List Nat) (w : Word) : Word :=
  if s.Moves w ∧ s.index w ∈ order then Word.pointer (newAddress s base order (s.index w)) else located L s w

theorem span_append (os os' : List Object) : span (os ++ os') = span os + span os' := by
  rw [span, map_append, sum_append]
  rfl

theorem eight_mul_span (os : List Object) : 8 * span os = (os.map Object.size).sum := by
  induction os with
  | nil => rfl
  | cons o os ih =>
    have := o.size_eq
    simp only [span, map_cons, sum_cons] at ih ⊢
    omega

theorem length_flatMap_image (f : Word → Word) (order : List Nat) :
    (order.flatMap fun i => (s.object i).image L.code f).length = span (order.map s.object) := by
  rw [length_flatMap, span, map_map]
  exact congrArg List.sum (map_congr_left fun i _ => Object.length_image ..)

theorem newAddress_append (hi : i ∈ order) (base : Nat) (more : List Nat) :
    newAddress s base (order ++ more) i = newAddress s base order i := by
  rw [newAddress, newAddress, idxOf_append_of_mem hi, take_append_of_le_length (Nat.le_of_lt (idxOf_lt_length_of_mem hi))]

theorem newAddress_new (hi : i ∉ order) (base : Nat) :
    newAddress s base (order ++ [i]) i = base + span (order.map s.object) := by
  rw [newAddress, idxOf_append_of_notMem hi, idxOf_cons_self, Nat.add_zero, take_left]

theorem newAddress_lt (hi : i ∈ order) : newAddress s b order i < b + span (order.map s.object) := by
  have hk := idxOf_lt_length_of_mem hi
  have hsplit : order = order.take (order.idxOf i) ++ i :: order.drop (order.idxOf i + 1) := by
    conv_lhs => rw [← take_append_drop (order.idxOf i) order, drop_eq_getElem_cons hk, getElem_idxOf hk]
  have hspan := congrArg (fun l => span (l.map s.object)) hsplit
  simp only [map_append, span_append, map_cons] at hspan
  have := (s.object i).extent_pos
  rw [newAddress, hspan]
  simp only [span, map_cons, sum_cons]
  omega

theorem redirected_append (hw : s.Moves w → s.index w ∈ order) (base : Nat) (more : List Nat) :
    redirected L s base (order ++ more) w = redirected L s base order w := by
  by_cases hm : s.Moves w
  · rw [redirected, redirected, if_pos ⟨hm, mem_append_left _ (hw hm)⟩, if_pos ⟨hm, hw hm⟩, newAddress_append (hw hm)]
  · rw [redirected, redirected, if_neg fun h => hm h.1, if_neg fun h => hm h.1]

/-- What has been visited once keeps its new word. -/
theorem redirected_visited (hw : s.Moves w → s.index w < s.objects.size) (base : Nat) (more : List Nat) :
    redirected L s base (order ++ s.added order w ++ more) w = redirected L s base (order ++ s.added order w) w :=
  redirected_append (fun hm => (Store.extends_added s order w).visited w (.head _) hm (hw hm)) base more

theorem filled_succ (s : Store) (i : Nat) : filled s (i + 1) = filled s i + (s.object i).extent := by
  rw [filled, range_succ, map_append, span_append]
  simp [span, filled]

theorem filled_mono (hij : i ≤ j) : filled s i ≤ filled s j := by
  induction hij with
  | refl => exact Nat.le_refl _
  | step _ ih =>
    rw [Nat.succ_eq_add_one, filled_succ]
    omega

theorem le_filled (s : Store) (i : Nat) : i ≤ filled s i := by
  induction i with
  | zero => exact Nat.zero_le _
  | succ i ih =>
    have := (s.object i).extent_pos
    rw [filled_succ]
    omega

/-- What is copied takes no more room than all objects do. -/
theorem span_le (hn : order.Nodup) (hb : ∀ i ∈ order, i < s.objects.size) :
    span (order.map s.object) ≤ filled s s.objects.size := by
  obtain ⟨l, hl, hsub⟩ := hn.subperm fun i hi => mem_range.mpr (hb i hi)
  rw [filled, span, span, ← ((hl.map s.object).map Object.extent).sum_eq]
  exact ((hsub.map s.object).map Object.extent).sum_le_sum fun _ _ => Nat.zero_le _

/-! ### Copying -/

/-- The objects of a store stand outside of the half that `base` begins, which has room for them. -/
structure Source (L : Layout) (s : Store) (m : Memory) : Prop where
  constants : ∀ t < s.constants.size, L.constant t < m.constants
  spells : ∀ i < s.objects.size, Spells m.cell (L.object i) ((s.object i).image L.code (located L s))
  small : ∀ i < s.objects.size, (s.object i).size ≤ 4294967295
  above : ∀ i < s.objects.size, m.constants ≤ L.object i
  below : ∀ i < s.objects.size, L.object i < 2305843009213693952
  ordered : ∀ i j, i < j → j < s.objects.size →
    L.object i + (s.object i).extent ≤ L.object j
  apart : ∀ i < s.objects.size,
    L.object i + (s.object i).extent ≤ m.base ∨ m.base + m.half ≤ L.object i
  room : filled s s.objects.size ≤ m.half
  start : m.constants ≤ m.base
  limit : m.base + m.half ≤ 2305843009213693952

/-- A collection of `m₀` has copied the objects in the places `order`, and the words `ws` stand from `base` on. -/
structure Underway (L : Layout) (s : Store) (m₀ : Memory) (order : List Nat)
    (ws : List Word) (m : Memory) : Prop where
  nodup : order.Nodup
  bound : ∀ i ∈ order, i < s.objects.size
  halves : m.toHalves = m₀.toHalves
  hp : m.hp = m₀.base + ws.length
  length : ws.length = span (order.map s.object)
  spells : Spells m.cell m₀.base ws
  tags : ∀ i ∈ order, m.cell (L.object i) = .address (newAddress s m₀.base order i)
  kept : ∀ a, (∀ i ∈ order, a ≠ L.object i) → ¬ (m₀.base ≤ a ∧ a < m₀.base + m₀.half) →
    m.cell a = m₀.cell a

section
variable (src : Source L s m₀)
include src

theorem Source.ne_base (hi : i < s.objects.size) {k n : Nat} (hk : k < (s.object i).extent) (hn : n < m₀.half) :
    m₀.base + n ≠ L.object i + k := by
  have := src.apart i hi
  omega

theorem Source.ne_place (hi : i < s.objects.size) (hj : j < s.objects.size) (hij : j ≠ i) {k : Nat}
    (hk : k < (s.object i).extent) : L.object i + k ≠ L.object j := by
  rcases Nat.lt_or_gt_of_ne hij with hlt | hlt
  · have := src.ordered j i hlt hi
    have := (s.object j).extent_pos
    omega
  · have := src.ordered i j hlt hj
    omega

namespace Underway
variable (h : Underway L s m₀ order ws m)
include h

theorem length_le : ws.length ≤ m₀.half := h.length ▸ Nat.le_trans (span_le h.nodup h.bound) src.room

/-- An object that has not been copied is as it was. -/
theorem spells_object (hi : i < s.objects.size) (hnew : i ∉ order) :
    Spells m.cell (L.object i) ((s.object i).image L.code (located L s)) := by
  refine (src.spells i hi).of_eq fun k hk => h.kept _ (fun j hj => ?_) fun hin => ?_
  · rw [Object.length_image] at hk
    exact src.ne_place hi (h.bound j hj) (fun hji => hnew (hji ▸ hj)) hk
  · rw [Object.length_image] at hk
    exact src.ne_base hi hk (n := L.object i + k - m₀.base) (by omega) (by omega)

theorem copy (hi : i < s.objects.size) (hnew : i ∉ order) :
    Underway L s m₀ (order ++ [i]) (ws ++ (s.object i).image L.code (located L s))
      (m.copy (L.object i)) := by
  have hnodup : (order ++ [i]).Nodup := nodup_append.mpr
    ⟨h.nodup, nodup_singleton i, fun x hx y hy hxy => hnew (mem_singleton.mp hy ▸ hxy ▸ hx)⟩
  have hbound : ∀ j ∈ order ++ [i], j < s.objects.size := fun j hj =>
    (mem_append.mp hj).elim (h.bound j) fun hj => mem_singleton.mp hj ▸ hi
  have himage := Object.length_image L.code (located L s) (s.object i)
  have hspan : span ((order ++ [i]).map s.object) = ws.length + (s.object i).extent := by
    rw [map_append, span_append, ← h.length]
    simp [span]
  have hroom := Nat.le_trans (span_le hnodup hbound) src.room
  rw [hspan] at hroom
  have hobject := h.spells_object src hi hnew
  have hextent : (m.cell (L.object i)).extent = (s.object i).extent := by
    rw [hobject.1]
    exact Word.extent_tag (s.object i).kind_lt (src.small i hi)
  have hpos := (s.object i).extent_pos
  have happart : ∀ j < s.objects.size, ∀ k < m₀.half, m₀.base + k ≠ L.object j := fun j hj k hk =>
    src.ne_base hj (k := 0) (s.object j).extent_pos hk
  -- the words outside of the copy and of the tag word
  have hsame : ∀ b, b ≠ L.object i → ¬ (m.hp ≤ b ∧ b < m.hp + (s.object i).extent) →
      (m.copy (L.object i)).cell b = m.cell b := fun b hb hout => by
    simp only [Memory.copy, set, hextent, if_neg hb, if_neg hout]
  have hcopied : ∀ k < (s.object i).extent,
      (m.copy (L.object i)).cell (m.hp + k) = m.cell (L.object i + k) := fun k hk => by
    have hne : m.hp + k ≠ L.object i := by
      rw [h.hp, Nat.add_assoc]
      exact happart i hi _ (by omega)
    simp only [Memory.copy, set, hextent, if_neg hne]
    rw [if_pos (by omega), Nat.add_sub_cancel_left]
  have hhp := h.hp
  refine ⟨hnodup, hbound, h.halves, ?_, ?_, ?_, fun j hj => ?_, fun b hb hout => ?_⟩
  · show m.hp + _ = _
    rw [hextent, h.hp, length_append, himage, Nat.add_assoc]
  · rw [hspan, length_append, himage]
  · rw [spells_append]
    refine ⟨h.spells.of_eq fun k hk => hsame _ (happart i hi k (by omega)) (by omega), ?_⟩
    rw [← h.hp]
    exact hobject.of_eq fun k hk => hcopied k (by rwa [himage] at hk)
  · rcases mem_append.mp hj with hj | hj
    · have hji : i ≠ j := fun hij => hnew (hij ▸ hj)
      have hne : L.object j ≠ _ := src.ne_place (h.bound j hj) hi hji (k := 0) (s.object j).extent_pos
      rw [hsame _ hne fun hin => ?_, h.tags j hj, newAddress_append hj]
      exact happart j (h.bound j hj) (L.object j - m₀.base) (by omega) (by omega)
    · rw [mem_singleton.mp hj, newAddress_new hnew, ← h.length, ← h.hp]
      simp [Memory.copy, set]
  · rw [hsame b (hb i (by simp)) fun hin => hout (by omega)]
    exact h.kept b (fun j hj => hb j (mem_append_left _ hj)) hout

/-- A visit copies what the word points to, unless that has been done, and gives the word that points to the copy. -/
theorem visit (hw : s.Moves w → s.index w < s.objects.size) :
    (m.visit (located L s w)).1 = redirected L s m₀.base (order ++ s.added order w) w ∧
      Underway L s m₀ (order ++ s.added order w) (ws ++ originals L s (s.added order w))
        (m.visit (located L s w)).2 := by
  have hconstants : m.constants = m₀.constants := congrArg Halves.constants h.halves
  by_cases hm : s.Moves w
  · have hlocated : located L s w = .pointer (L.object (s.index w)) := by
      rw [located, if_pos hm]
    have hlt := src.below _ (hw hm)
    have habove := src.above _ (hw hm)
    have hvisit : m.visit (located L s w) =
        if (m.cell (L.object (s.index w))).isAddress then
          (.pointer (m.cell (L.object (s.index w))).target, m)
        else (.pointer m.hp, m.copy (L.object (s.index w))) := by
      rw [hlocated, Memory.visit, Word.isPointer_pointer hlt, Word.target_pointer hlt, if_neg]
      simpa [hconstants] using habove
    rw [hvisit]
    by_cases hi : s.index w ∈ order
    · have hadded : s.added order w = [] := if_neg fun h => h.2.2 hi
      have hto : newAddress s m₀.base order (s.index w) < 2305843009213693952 := by
        have := newAddress_lt hi (s := s) (b := m₀.base)
        have := h.length ▸ h.length_le src
        have := src.limit
        omega
      rw [h.tags _ hi, if_pos (by rw [Word.isAddress_iff, Word.toNat_address hto]; omega), Word.target_address hto, hadded]
      simp only [append_nil, originals, flatMap_nil]
      exact ⟨(if_pos ⟨hm, hi⟩).symm, h⟩
    · have hadded : s.added order w = [s.index w] := if_pos ⟨hm, hw hm, hi⟩
      have hodd : ¬ (m.cell (L.object (s.index w))).isAddress = true := by
        rw [(h.spells_object src (hw hm) hi).1, Word.isAddress_iff]
        show ¬ (Word.tag _ _).toNat % 2 = 0
        rw [Word.toNat_tag (Object.kind_lt _) (src.small _ (hw hm))]
        have := (s.object (s.index w)).kind_odd
        omega
      rw [if_neg hodd, hadded]
      refine ⟨?_, ?_⟩
      · rw [redirected, if_pos ⟨hm, by simp⟩, newAddress_new hi, ← h.length, ← h.hp]
      · have := h.copy src (hw hm) hi
        simpa [originals] using this
  · have hadded : s.added order w = [] := if_neg fun h => hm h.1
    have hvisit : m.visit (located L s w) = (located L s w, m) := by
      rw [Memory.visit, if_pos]
      cases hp : w.isPointer with
      | false => simp [located, hm, hp]
      | true =>
        have hplace := src.constants w.target (Nat.not_le.mp fun hle => hm ⟨hp, hle⟩)
        have hlt : L.constant w.target < 2305843009213693952 := by
          have := src.start
          have := src.limit
          omega
        simpa [located, hm, hp, Word.target_pointer hlt, hconstants] using .inr hplace
    rw [hvisit, hadded]
    simp only [append_nil, originals, flatMap_nil]
    exact ⟨(if_neg fun h => hm h.1).symm, h⟩

omit h in
theorem write {vs : List Word} {x y : Word} (h : Underway L s m₀ order (vs ++ x :: ws) m) :
    Underway L s m₀ order (vs ++ y :: ws) (m.set (m₀.base + vs.length) y) := by
  have hle := h.length_le src
  simp only [length_append, length_cons] at hle
  have hset : ∀ b, b ≠ m₀.base + vs.length → (m.set (m₀.base + vs.length) y).cell b = m.cell b := fun b hb => if_neg hb
  have hspells := spells_append.mp h.spells
  refine ⟨h.nodup, h.bound, h.halves, ?_, ?_, ?_, fun i hi => ?_, fun b hb hout => ?_⟩
  · exact h.hp.trans (by simp)
  · exact Eq.trans (by simp) h.length
  · refine spells_append.mpr ⟨hspells.1.of_eq fun k hk => hset _ (by omega), if_pos rfl, ?_⟩
    exact hspells.2.2.of_eq fun k _ => hset _ (by omega)
  · have hne := src.ne_base (h.bound i hi) (k := 0) (Object.extent_pos _) (show vs.length < m₀.half by omega)
    exact (hset _ hne.symm).trans (h.tags i hi)
  · rw [hset b fun hb => hout (by omega)]
    exact h.kept b hb hout

omit h in
theorem visitCell {vs : List Word} (h : Underway L s m₀ order (vs ++ located L s w :: ws) m)
    (hw : s.Moves w → s.index w < s.objects.size) :
    Underway L s m₀ (order ++ s.added order w)
      (vs ++ redirected L s m₀.base (order ++ s.added order w) w :: (ws ++ originals L s (s.added order w)))
      (m.visitCell (m₀.base + vs.length)) := by
  have hcell : m.cell (m₀.base + vs.length) = located L s w := (spells_append.mp h.spells).2.1
  obtain ⟨hword, hvisit⟩ := h.visit src hw
  rw [append_assoc, cons_append] at hvisit
  unfold Memory.visitCell
  rw [hcell, ← hword]
  exact hvisit.write src

omit h in
/-- The visits of the values of slots put the new words in their places and copy what they point to. -/
theorem visitSlots {vs : List Word} {slots : List Slot}
    (h : Underway L s m₀ order (vs ++ (slots.map (Slot.word (located L s)) ++ ws)) m)
    (hw : ∀ w ∈ Slot.values slots, s.Moves w → s.index w < s.objects.size) :
    ∃ new, s.enlist order (Slot.values slots) = order ++ new ∧
      Underway L s m₀ (order ++ new)
        (vs ++ (slots.map (Slot.word (redirected L s m₀.base (order ++ new))) ++ (ws ++ originals L s new)))
        ((Slot.addresses (m₀.base + vs.length) slots).foldl Memory.visitCell m) := by
  induction slots generalizing order vs ws m with
  | nil => exact ⟨[], (append_nil _).symm, by simpa [originals, Slot.addresses] using h⟩
  | cons slot slots ih =>
    cases slot with
    | fixed x =>
      have hnext : Underway L s m₀ order ((vs ++ [x]) ++ (slots.map (Slot.word (located L s)) ++ ws)) m := by
        simpa [Slot.word] using h
      obtain ⟨new, hnew, hend⟩ := ih hnext hw
      exact ⟨new, hnew, by simpa [Slot.addresses, Slot.word, Nat.add_assoc] using hend⟩
    | value w =>
      have hvalid := hw w (.head _)
      have hfirst : Underway L s m₀ order (vs ++ located L s w :: (slots.map (Slot.word (located L s)) ++ ws)) m := by
        simpa [Slot.word] using h
      have hnext : Underway L s m₀ (order ++ s.added order w)
          ((vs ++ [redirected L s m₀.base (order ++ s.added order w) w]) ++
            (slots.map (Slot.word (located L s)) ++ (ws ++ originals L s (s.added order w))))
          (m.visitCell (m₀.base + vs.length)) := by
        simpa using hfirst.visitCell src hvalid
      obtain ⟨new, hnew, hend⟩ := ih hnext fun v hv => hw v (.tail _ hv)
      refine ⟨s.added order w ++ new, by rw [Slot.values, Store.enlist_cons, hnew, append_assoc], ?_⟩
      rw [map_cons, Slot.word, ← append_assoc order, redirected_visited hvalid]
      simpa [Slot.addresses, originals, Nat.add_assoc, append_assoc] using hend

theorem visitAll {vs : List Word} (hw : ∀ w ∈ vs, s.Moves w → s.index w < s.objects.size) :
    ∃ new, s.enlist order vs = order ++ new ∧
      (m.visitAll (vs.map (located L s))).1 = vs.map (redirected L s m₀.base (order ++ new)) ∧
      Underway L s m₀ (order ++ new) (ws ++ originals L s new) (m.visitAll (vs.map (located L s))).2 := by
  induction vs generalizing order ws m with
  | nil => exact ⟨[], (append_nil _).symm, rfl, by simpa [originals, Memory.visitAll] using h⟩
  | cons w vs ih =>
    have hvalid := hw w (.head _)
    obtain ⟨hword, hvisit⟩ := h.visit src hvalid
    obtain ⟨new, hnew, hwords, hend⟩ := ih hvisit fun v hv => hw v (.tail _ hv)
    refine ⟨s.added order w ++ new, by rw [Store.enlist_cons, hnew, append_assoc], ?_, ?_⟩
    · rw [← append_assoc, map_cons, map_cons, redirected_visited hvalid, ← hword, ← hwords]
      rfl
    · simpa [originals, append_assoc, Memory.visitAll] using hend

end Underway

/-- The copies when the scan has come to a position: those before it have new words, the others are as they were. -/
def scanned (L : Layout) (s : Store) (base : Nat) (order : List Nat) (p : Nat) : List Word :=
  (order.take p).flatMap (fun i => (s.object i).image L.code (redirected L s base order)) ++
    originals L s (order.drop p)

namespace Underway
variable {p : Nat} {roots : Array Word}

theorem scan_step (hs : s.Sound roots) (ht : s.Traced roots order p) (hi : order[p]? = some i)
    (h : Underway L s m₀ order (scanned L s m₀.base order p) m) :
    Spells m.cell (m₀.base + span ((order.take p).map s.object)) ((s.object i).image L.code (located L s)) ∧
      Underway L s m₀ (s.enlist order (s.object i).words)
        (scanned L s m₀.base (s.enlist order (s.object i).words) (p + 1))
        ((Slot.addresses (m₀.base + span ((order.take p).map s.object)) ((s.object i).slots L.code)).foldl
          Memory.visitCell m) := by
  obtain ⟨hp, hpi⟩ := List.getElem?_eq_some_iff.mp hi
  have hdrop : order.drop p = i :: order.drop (p + 1) := by rw [drop_eq_getElem_cons hp, hpi]
  have hlt := ht.bound i (mem_of_getElem? hi)
  have hlength := length_flatMap_image (L := L) (s := s) (redirected L s m₀.base order) (order.take p)
  rw [scanned, hdrop, originals, flatMap_cons] at h
  refine ⟨?_, ?_⟩
  · have := (spells_append.mp (spells_append.mp h.spells).2).1
    rwa [hlength] at this
  · have hwords := hs.words hlt
    rw [← Object.values_slots L.code] at hwords
    obtain ⟨new, hnew, hend⟩ := visitSlots src h hwords
    rw [Object.values_slots] at hnew
    rw [hnew, ← hlength]
    have hold : (order.take p).flatMap (fun i => (s.object i).image L.code (redirected L s m₀.base order)) =
        (order.take p).flatMap fun i => (s.object i).image L.code (redirected L s m₀.base (order ++ new)) :=
      flatMap_congr fun j hj => Object.image_congr fun w hw => (redirected_append (ht.closed j hj w hw) _ new).symm
    have htake : (order ++ new).take (p + 1) = order.take p ++ [i] := by
      rw [take_append_of_le_length (Nat.succ_le_of_lt hp), take_add_one, hi, Option.toList_some]
    rw [hold] at hend
    rw [scanned, htake, drop_append_of_le_length (Nat.succ_le_of_lt hp)]
    simpa [originals, Object.image, append_assoc] using hend

/-- The scan goes through the copies in the order of the places and comes to an end. -/
theorem scan (hs : s.Sound roots) {fuel time : Nat} (hfuel : s.objects.size < fuel + p) (htime : s.objects.size < time + p)
    (hp : p ≤ order.length) (ht : s.Traced roots order p)
    (h : Underway L s m₀ order (scanned L s m₀.base order p) m) :
    ∃ m', Memory.scan time (m₀.base + span ((order.take p).map s.object)) m = some m' ∧
      Underway L s m₀ (s.trace fuel p order)
        (scanned L s m₀.base (s.trace fuel p order) (s.trace fuel p order).length) m' := by
  induction fuel generalizing time order p m with
  | zero =>
    have := ht.length_le
    omega
  | succ fuel ih =>
    cases time with
    | zero =>
      have := ht.length_le
      omega
    | succ time =>
      rw [Store.trace]
      cases hi : order[p]? with
      | none =>
        have hend : p = order.length := Nat.le_antisymm hp (List.getElem?_eq_none_iff.mp hi)
        subst hend
        refine ⟨m, ?_, h⟩
        rw [Memory.scan, if_neg (by rw [h.hp, h.length, take_length]; omega)]
      | some i =>
        have hlt : p < order.length := (List.getElem?_eq_some_iff.mp hi).1
        have hbound := ht.bound i (mem_of_getElem? hi)
        obtain ⟨hspells, hstep⟩ := scan_step src hs ht hi h
        obtain ⟨new, hnew, -⟩ := Store.enlist_extends s order (s.object i).words
        have hnext : ((s.enlist order (s.object i).words).take (p + 1)).map s.object =
            (order.take p).map s.object ++ [s.object i] := by
          rw [hnew, take_append_of_le_length (Nat.succ_le_of_lt hlt), take_add_one, hi, Option.toList_some, map_append]
          rfl
        have hle : p + 1 ≤ (s.enlist order (s.object i).words).length := by
          rw [hnew, length_append]
          omega
        have htime' : s.objects.size < time + (p + 1) := by omega
        obtain ⟨m', hscan, hend⟩ := ih (by omega) htime' hle (ht.step hs hi) hstep
        refine ⟨m', ?_, hend⟩
        have hextent : (m.cell (m₀.base + span ((order.take p).map s.object))).extent = (s.object i).extent := by
          rw [hspells.1]
          exact Word.extent_tag (s.object i).kind_lt (src.small i hbound)
        have hhp : m₀.base + span ((order.take p).map s.object) < m.hp := by
          have hidx : order.idxOf i = p := by
            rw [← (List.getElem?_eq_some_iff.mp hi).2]
            exact ht.nodup.idxOf_getElem ..
          have := newAddress_lt (s := s) (b := m₀.base) (mem_of_getElem? hi)
          rwa [newAddress, hidx, ← h.length, ← h.hp] at this
        rw [hnext, span_append, ← Nat.add_assoc] at hscan
        rw [Memory.scan, if_pos hhp, Object.valueCells_eq hspells (src.small i hbound), hextent]
        simpa [span] using hscan

end Underway

end

/-! ### Collections -/

/-- The half in use is one of two that lie apart, above the constant objects. -/
structure Proper (h : Halves) : Prop where
  base : h.base = h.toSpace
  limit : h.limit = h.base + h.half
  above : h.constants ≤ h.toSpace ∧ h.constants ≤ h.fromSpace
  below : h.toSpace + h.half ≤ 2305843009213693952 ∧ h.fromSpace + h.half ≤ 2305843009213693952
  apart : h.toSpace + h.half ≤ h.fromSpace ∨ h.fromSpace + h.half ≤ h.toSpace

/-- The constant objects of a store stand where the layout says. -/
def HoldsConstants (L : Layout) (s : Store) (m : Memory) : Prop := ∀ t o, s.constants[t]? = some o →
  L.constant t + o.extent ≤ m.constants ∧ Spells m.cell (L.constant t) (o.image L.code (located L s))

/-- The objects of the store stand one behind the other from `base` to `hp`, and fit into the half. -/
structure Holds (L : Layout) (s : Store) (m : Memory) : Prop where
  halves : Proper m.toHalves
  constants : m.HoldsConstants L s
  places : ∀ i < s.objects.size, L.object i = m.base + filled s i
  spells : ∀ i < s.objects.size, Spells m.cell (L.object i) ((s.object i).image L.code (located L s))
  small : ∀ i < s.objects.size, (s.object i).size ≤ 4294967295
  hp : m.hp = m.base + filled s s.objects.size
  room : m.hp ≤ m.limit
  used : s.used = 8 * (m.hp - m.base)
  space : s.space = 16 * m.half

/-- The objects that a memory holds can be copied to another half. -/
theorem Holds.source {m' : Memory} (h : m.Holds L s) (hcell : m'.cell = m.cell) (hconstants : m'.constants = m.constants)
    (hstart : m.constants ≤ m'.base) (hlimit : m'.base + m'.half ≤ 2305843009213693952) (hhalf : m.half ≤ m'.half)
    (happart : m.base + m.half ≤ m'.base ∨ m'.base + m'.half ≤ m.base) : Source L s m' := by
  have hroom : filled s s.objects.size ≤ m.half := by
    have := h.room
    rw [h.hp, h.halves.limit] at this
    omega
  have hnext : ∀ i j, i < j → j ≤ s.objects.size → L.object i + (s.object i).extent ≤ m.base + filled s j :=
    fun i j hij hj => by
      have := filled_mono (s := s) (Nat.succ_le_of_lt hij)
      rw [filled_succ] at this
      rw [h.places i (Nat.lt_of_lt_of_le hij hj)]
      omega
  have hend : ∀ i < s.objects.size, L.object i + (s.object i).extent ≤ m.base + m.half := fun i hi =>
    Nat.le_trans (hnext i _ hi (Nat.le_refl _)) (Nat.add_le_add_left hroom _)
  refine ⟨fun t ht => ?_, fun i hi => hcell ▸ h.spells i hi, h.small, fun i hi => ?_, fun i hi => ?_,
    fun i j hij hj => ?_, fun i hi => ?_, Nat.le_trans hroom hhalf, hconstants ▸ hstart, hlimit⟩
  · have := (h.constants t _ (Array.getElem?_eq_getElem ht)).1
    have := Object.extent_pos s.constants[t]
    omega
  · have := h.halves.above.1
    rw [h.places i hi, hconstants, h.halves.base]
    omega
  · have := hend i hi
    have := (s.object i).extent_pos
    have := h.halves.below.1
    have := h.halves.base
    omega
  · rw [h.places j hj]
    exact hnext i j hij (Nat.le_of_lt hj)
  · have := hend i hi
    have := h.places i hi
    omega

section
variable {roots : Array Word}

/-- The new words of all copies. -/
def moved (L : Layout) (s : Store) (base : Nat) (order : List Nat) : List Word :=
  order.flatMap fun i => (s.object i).image L.code (redirected L s base order)

theorem Underway.start (hm : m.hp = m.base) : Underway L s m [] [] m where
  nodup := .nil
  bound _ hi := by cases hi
  halves := rfl
  hp := hm
  length := rfl
  spells := trivial
  tags _ hi := by cases hi
  kept _ _ _ := rfl

theorem Source.collect (src : Source L s m.flip) (hs : s.Sound roots) :
    ∃ m', m.collect (roots.toList.map (located L s)) =
        some (roots.toList.map (redirected L s m.fromSpace (s.copyOrder roots)), m') ∧
      Underway L s m.flip (s.copyOrder roots) (moved L s m.fromSpace (s.copyOrder roots)) m' := by
  have hvalid : ∀ w ∈ roots.toList, s.Moves w → s.index w < s.objects.size := fun w hw =>
    hs.roots w (Array.mem_toList_iff.mp hw)
  obtain ⟨new, hnew, hroots, hvisited⟩ := (Underway.start rfl).visitAll src hvalid
  obtain ⟨htraced, hmem⟩ := Store.roots_traced hs
  rw [nil_append] at hnew hroots hvisited
  have htime : s.objects.size < m.half + 1 + 0 := by
    exact Nat.lt_succ_of_le (Nat.le_trans (le_filled s _) src.room)
  rw [← hnew] at hroots hvisited
  have hscanned : [] ++ originals L s (s.enlist [] roots.toList) =
      scanned L s m.flip.base (s.enlist [] roots.toList) 0 := rfl
  rw [hscanned] at hvisited
  obtain ⟨m', hscan, hend⟩ := Underway.scan src hs (Nat.lt_succ_self s.objects.size) htime (Nat.zero_le _) htraced hvisited
  obtain ⟨more, hmore, -⟩ := htraced.trace hs (Nat.lt_succ_self _) (Nat.zero_le _)
  have hroots' : (m.flip.visitAll (roots.toList.map (located L s))).1 =
      roots.toList.map (redirected L s m.fromSpace (s.copyOrder roots)) := by
    rw [hroots, Store.copyOrder, hmore]
    exact map_congr_left fun w hw => (redirected_append (hmem w (Array.mem_toList_iff.mp hw)) _ more).symm
  refine ⟨m', ?_, ?_⟩
  · rw [← hroots']
    exact congrArg (·.bind fun m' => some ((m.flip.visitAll (roots.toList.map (located L s))).1, m')) hscan
  · rw [scanned, take_length, drop_length, originals, flatMap_nil, append_nil] at hend
    exact hend

/-- Where the copies stand. -/
def Layout.after (L : Layout) (s : Store) (base : Nat) (order : List Nat) : Layout :=
  { L with object := fun j => base + span ((order.take j).map s.object) }

section Transfer
variable {s' : Store} (ht : s.Transfer roots order s')
include ht

theorem located_of_not (hw : ¬ s.Moves w) (base : Nat) : located (L.after s base order) s' w = located L s w := by
  rw [located, located, if_neg hw, if_neg fun h => hw ((ht.moves w).mp h)]
  rfl

theorem located_forward (hw : s.Reaches roots w) (base : Nat) :
    located (L.after s base order) s' (s.forward order w) = redirected L s base order w := by
  by_cases hm : s.Moves w
  · have hmem := ht.complete hw hm
    obtain ⟨hmoves, hindex⟩ := ht.pointer hm hmem
    rw [located, if_pos hmoves, hindex, redirected, if_pos ⟨hm, hmem⟩]
    rfl
  · rw [Store.forward_of_not hm, located_of_not ht hm, redirected, if_neg fun h => hm h.1]

theorem object_copy (hj : order[j]? = some i) : s'.object j = (s.object i).map (s.forward order) := by
  apply Store.object_of_getElem?
  rw [← Array.getElem?_toList, ht.objects, getElem?_map, hj]
  rfl

theorem filled_copies (hj : j ≤ order.length) : filled s' j = span ((order.take j).map s.object) := by
  induction j with
  | zero => rfl
  | succ j ih =>
    have hget := List.getElem?_eq_getElem (show j < order.length from hj)
    rw [filled_succ, ih (Nat.le_of_lt hj), object_copy ht hget, take_add_one, hget, Option.toList_some, map_append,
      span_append, Object.extent, Object.size_map]
    simp [span, Object.extent]

theorem image_copy (hi : i ∈ order) (base : Nat) :
    ((s.object i).map (s.forward order)).image L.code (located (L.after s base order) s') =
      (s.object i).image L.code (redirected L s base order) := by
  obtain ⟨v, hv, hvo⟩ := (ht.live i hi).get? (ht.bound i hi).1
  rw [Object.image_map]
  exact Object.image_congr fun w hw => located_forward ht (hv.word hvo hw) base

/-- A finished collection holds the store of the copies. -/
theorem Underway.holds (hs : s.Sound roots) (src : Source L s m₀) (h : Underway L s m₀ order (moved L s m₀.base order) m)
    (hhalves : Proper m₀.toHalves) (hconstants : m₀.HoldsConstants L s) (hspace : s'.space = 16 * m₀.half) :
    m.Holds (L.after s m₀.base order) s' := by
  have hlength := h.length
  have hle := h.length_le src
  obtain ⟨halves, cell, hp⟩ := m
  obtain rfl : halves = m₀.toHalves := h.halves
  have hhp : hp = m₀.base + (moved L s m₀.base order).length := h.hp
  have hfilled : filled s' s'.objects.size = (moved L s m₀.base order).length := by
    rw [ht.size_objects, filled_copies ht (Nat.le_refl _), take_length, hlength]
  have hget {j : Nat} (hj : j < s'.objects.size) : ∃ i ∈ order, order[j]? = some i ∧
      order = order.take j ++ i :: order.drop (j + 1) := by
    rw [ht.size_objects] at hj
    refine ⟨order[j], getElem_mem hj, List.getElem?_eq_getElem hj, ?_⟩
    rw [← drop_eq_getElem_cons, take_append_drop]
  refine ⟨hhalves, fun t o ho => ?_, fun j hj => ?_, fun j hj => ?_, fun j hj => ?_, ?_, ?_, ?_, hspace⟩
  · rw [ht.constants] at ho
    obtain ⟨hlt, hspells⟩ := hconstants t o ho
    refine ⟨hlt, ?_⟩
    have hwords : o.image L.code (located (L.after s m₀.base order) s') = o.image L.code (located L s) :=
      Object.image_congr fun w hw => located_of_not ht (hs.constants o (Array.mem_of_getElem? ho) w hw) _
    show Spells cell (L.constant t) (o.image L.code _)
    rw [hwords]
    refine hspells.of_eq fun k hk => h.kept _ (fun i hi => ?_) fun hin => ?_
    · have := src.above i (ht.bound i hi).1
      rw [Object.length_image] at hk
      omega
    · have := src.start
      rw [Object.length_image] at hk
      omega
  · rw [filled_copies ht (ht.size_objects ▸ Nat.le_of_lt hj)]
    rfl
  · obtain ⟨i, hi, hji, hsplit⟩ := hget hj
    have hrow : moved L s m₀.base order = _ :=
      congrArg (·.flatMap fun i => (s.object i).image L.code (redirected L s m₀.base order)) hsplit
    have hspells := h.spells
    rw [hrow, flatMap_append, flatMap_cons, spells_append, spells_append, length_flatMap_image] at hspells
    rw [object_copy ht hji]
    show Spells cell _ (Object.image L.code _ _)
    rw [image_copy ht hi]
    exact hspells.2.1
  · obtain ⟨i, hi, hji, -⟩ := hget hj
    rw [object_copy ht hji, Object.size_map]
    exact src.small i (ht.bound i hi).1
  · rw [hfilled]
    exact hhp
  · show hp ≤ m₀.limit
    rw [hhp, hhalves.limit]
    omega
  · show s'.used = 8 * (hp - m₀.base)
    rw [ht.used, hhp, hlength, Nat.add_sub_cancel_left, eight_mul_span, map_map]
    rfl

end Transfer

/-- What has become of a store in memory: the result of the collection holds the copies, the constant objects are as they
were, and between `base` and `hp` there is nothing but what the live objects take. -/
def Carries (L : Layout) (s : Store) (roots : Array Word) (m : Memory) (result : Option (List Word × Memory))
    (copied : Array Word × Store) : Prop :=
  ∃ L' m', result = some (copied.1.toList.map (located L' copied.2), m') ∧ m'.Holds L' copied.2 ∧
    L'.code = L.code ∧ L'.constant = L.constant ∧ (∀ a < m.constants, m'.cell a = m.cell a) ∧
    8 * (m'.hp - m'.base) = ∑ i ∈ s.live roots, (s.object i).size

theorem Source.carries {s' : Store} (src : Source L s m.flip) (hs : s.Sound roots)
    (hhalves : Proper m.flip.toHalves) (hconstants : m.HoldsConstants L s) (hspace : s'.space = 16 * m.half)
    (ht : s.Transfer roots (s.copyOrder roots) s') :
    m.Carries L s roots (m.collect (roots.toList.map (located L s))) (roots.map (s.forward (s.copyOrder roots)), s') := by
  obtain ⟨m', hcollect, hend⟩ := src.collect hs
  have hholds := hend.holds ht hs src hhalves hconstants hspace
  refine ⟨_, m', ?_, hholds, rfl, rfl, fun a ha => ?_, ?_⟩
  · have hroots : roots.toList.map (redirected L s m.fromSpace (s.copyOrder roots)) =
        roots.toList.map (located (L.after s m.fromSpace (s.copyOrder roots)) s' ∘ s.forward (s.copyOrder roots)) :=
      map_congr_left fun w hw => (located_forward ht (.root (Array.mem_toList_iff.mp hw)) m.fromSpace).symm
    rw [hcollect, hroots, Array.toList_map, map_map]
    rfl
  · refine hend.kept a (fun i hi => ?_) fun hin => ?_
    · have : m.constants ≤ L.object i := src.above i (ht.bound i hi).1
      omega
    · have : m.constants ≤ m.flip.base := src.start
      omega
  · rw [← hholds.used, ht.used_eq_sum]

end

end Memory

end Scrap.Machine
