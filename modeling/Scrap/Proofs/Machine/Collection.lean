import Mathlib.Algebra.BigOperators.Group.Finset.Basic
import Mathlib.Data.List.Perm.Subperm
import Scrap.Machine.Store
import Scrap.Proofs.Machine.Words

/-! # Collection keeps what the roots lead to

A collection copies every object that the roots lead to once, and no other, and keeps their graph. The argument follows
the list of the objects in the order of their copying: the copies before the position of the scan hold the new words,
all of which have been visited; those from there on are still as the objects were. -/

namespace Scrap.Machine

open List

variable {ws : List Word} {i j : Nat} {o : Object} {f : Word → Word}

namespace Object

theorem map_congr {g : Word → Word} (h : ∀ w ∈ o.words, f w = g w) : o.map f = o.map g := by
  cases o with
  | list a b => rw [map, map, h a (by simp [words]), h b (by simp [words])]
  | closure k ws =>
    have : ws.map f = ws.map g := map_congr_left h
    rw [map, map, this]
  | record fields =>
    have : fields.map (fun p => (p.1, f p.2)) = fields.map fun p => (p.1, g p.2) :=
      map_congr_left fun p hp => by rw [h p.2 (mem_map_of_mem hp)]
    rw [map, map, this]
  | string bytes => rfl
  | variant t w => rw [map, map, h w (by simp [words])]

theorem map_eq_self (h : ∀ w ∈ o.words, f w = w) : o.map f = o := by
  rw [map_congr h]
  cases o <;> simp [map]

theorem words_map (f : Word → Word) (o : Object) : (o.map f).words = o.words.map f := by
  cases o <;> simp [map, words, Function.comp_def]

theorem size_map (f : Word → Word) (o : Object) : (o.map f).size = o.size := by
  cases o <;> simp [map, size]

end Object

namespace Store

variable {roots : Array Word} {new order : List Nat} {s : Store} {w : Word}

/-! ### What the roots lead to -/

/-- The words that the roots lead to. -/
inductive Reaches (s : Store) (roots : Array Word) : Word → Prop
  | root {w : Word} : w ∈ roots → Reaches s roots w
  | word {w v : Word} {o : Object} : Reaches s roots w → s.get? w = some o → v ∈ o.words → Reaches s roots v

def Live (s : Store) (roots : Array Word) (i : Nat) : Prop := ∃ w, s.Reaches roots w ∧ s.Moves w ∧ s.index w = i

open Classical in
noncomputable def live (s : Store) (roots : Array Word) : Finset Nat := (Finset.range s.objects.size).filter (s.Live roots)

theorem mem_live : i ∈ s.live roots ↔ i < s.objects.size ∧ s.Live roots i := by
  simp [live]

/-- Every pointer leads to an object, and those in constants lead to constants. -/
structure Sound (s : Store) (roots : Array Word) : Prop where
  constants : ∀ o ∈ s.constants, ∀ w ∈ o.words, ¬ s.Moves w
  objects : ∀ o ∈ s.objects, ∀ w ∈ o.words, s.Moves w → s.index w < s.objects.size
  roots : ∀ w ∈ roots, s.Moves w → s.index w < s.objects.size

instance (s : Store) (roots : Array Word) : Decidable (s.Sound roots) :=
  decidable_of_iff ((s.constants.all fun o => o.words.all fun w => !decide (s.Moves w)) = true ∧
      (s.objects.all fun o => o.words.all fun w => !decide (s.Moves w) || decide (s.index w < s.objects.size)) = true ∧
      (roots.all fun w => !decide (s.Moves w) || decide (s.index w < s.objects.size)) = true) <| by
    simp only [Array.all_eq_true_iff_forall_mem, all_eq_true, Bool.or_eq_true, Bool.not_eq_true', decide_eq_true_eq,
      decide_eq_false_iff_not, ← imp_iff_not_or]
    exact ⟨fun h => ⟨h.1, h.2.1, h.2.2⟩, fun h => ⟨h.constants, h.objects, h.roots⟩⟩

theorem get?_of_moves (hw : s.Moves w) : s.get? w = s.objects[s.index w]? := by
  rw [get?, if_pos hw.1, if_neg (Nat.not_lt.mpr hw.2), index]

theorem mem_constants_of_get? (hw : ¬ s.Moves w) (ho : s.get? w = some o) : o ∈ s.constants := by
  unfold get? at ho
  split at ho
  · rename_i hp
    have hlt : w.target < s.constants.size := Nat.not_le.mp fun hle => hw ⟨hp, hle⟩
    rw [if_pos hlt] at ho
    exact Array.mem_of_getElem? ho
  · cases ho

theorem object_of_getElem? (h : s.objects[i]? = some o) : s.object i = o := by
  rw [object, Array.getD_eq_getD_getElem?, h]
  rfl

theorem getElem?_object (h : i < s.objects.size) : s.objects[i]? = some (s.object i) := by
  rw [object, Array.getD_eq_getD_getElem?, Array.getElem?_eq_getElem h]
  rfl

theorem add_index (hw : s.Moves w) : s.constants.size + s.index w = w.target := Nat.add_sub_cancel' hw.2

/-! ### New words -/

theorem forward_of_not (hw : ¬ s.Moves w) (order : List Nat) : s.forward order w = w := if_neg fun h => hw h.1

theorem forward_of_mem (hw : s.Moves w) (hi : s.index w ∈ order) :
    s.forward order w = Word.pointer (s.constants.size + order.idxOf (s.index w)) := if_pos ⟨hw, hi⟩

/-! ### The order of copying -/

theorem length_le_of_nodup {l : List Nat} {n : Nat} (hl : l.Nodup) (hn : ∀ i ∈ l, i < n) : l.length ≤ n := by
  have hsub : l.Subperm (List.range n) := hl.subperm fun i hi => mem_range.mpr (hn i hi)
  simpa using hsub.length_le

/-- There is room for the pointers to copies: each belongs to another pointer to an object. -/
theorem pointer_room (hn : order.Nodup) (hb : ∀ i ∈ order, s.constants.size + i < 2305843009213693952)
    (hj : j < order.length) : s.constants.size + j < 2305843009213693952 := by
  have hle : order.length ≤ 2305843009213693952 - s.constants.size := length_le_of_nodup hn fun i hi => by
    have := hb i hi
    omega
  omega

/-- The words `ws` add the places `new`. -/
structure Extends (s : Store) (ws : List Word) (order new : List Nat) : Prop where
  nodup : order.Nodup → (order ++ new).Nodup
  fresh : ∀ i ∈ new, i < s.objects.size ∧ ∃ w ∈ ws, s.Moves w ∧ s.index w = i
  visited : ∀ w ∈ ws, s.Moves w → s.index w < s.objects.size → s.index w ∈ order ++ new

/-- The place that one word adds, if it does. -/
def added (s : Store) (order : List Nat) (w : Word) : List Nat :=
  if s.Moves w ∧ s.index w < s.objects.size ∧ s.index w ∉ order then [s.index w] else []

theorem enlist_cons (s : Store) (order : List Nat) (w : Word) (ws : List Word) :
    s.enlist order (w :: ws) = s.enlist (order ++ s.added order w) ws := rfl

theorem extends_added (s : Store) (order : List Nat) (w : Word) : s.Extends [w] order (s.added order w) := by
  unfold added
  split
  · rename_i h
    refine ⟨fun hn => ?_, fun i hi => ?_, fun v hv _ _ => ?_⟩
    · exact nodup_append.mpr ⟨hn, nodup_singleton _, fun a ha b hb hab => h.2.2 (mem_singleton.mp hb ▸ hab ▸ ha)⟩
    · rw [mem_singleton.mp hi]
      exact ⟨h.2.1, w, .head _, h.1, rfl⟩
    · rw [mem_singleton.mp hv]
      simp
  · rename_i h
    refine ⟨fun hn => by rwa [append_nil], fun _ hi => (by cases hi), fun v hv hm hi => ?_⟩
    rw [mem_singleton.mp hv] at hm hi ⊢
    rw [append_nil]
    exact Decidable.not_not.mp fun hnot => h ⟨hm, hi, hnot⟩

theorem Extends.trans {ws' : List Word} {new' : List Nat} (h : s.Extends ws order new)
    (h' : s.Extends ws' (order ++ new) new') : s.Extends (ws ++ ws') order (new ++ new') where
  nodup hn := by
    rw [← append_assoc]
    exact h'.nodup (h.nodup hn)
  fresh i hi := by
    rcases mem_append.mp hi with hi | hi
    · obtain ⟨hlt, w, hw, hwi⟩ := h.fresh i hi
      exact ⟨hlt, w, mem_append_left _ hw, hwi⟩
    · obtain ⟨hlt, w, hw, hwi⟩ := h'.fresh i hi
      exact ⟨hlt, w, mem_append_right _ hw, hwi⟩
  visited w hw hm hi := by
    rw [← append_assoc]
    rcases mem_append.mp hw with hw | hw
    · exact mem_append_left _ (h.visited w hw hm hi)
    · exact h'.visited w hw hm hi

theorem enlist_extends (s : Store) (order : List Nat) (ws : List Word) :
    ∃ new, s.enlist order ws = order ++ new ∧ s.Extends ws order new := by
  induction ws generalizing order with
  | nil =>
    exact ⟨[], (append_nil _).symm, fun hn => by rwa [append_nil], fun _ hi => (by cases hi), fun _ hw => by cases hw⟩
  | cons w ws ih =>
    obtain ⟨new, hnew, he⟩ := ih (order ++ s.added order w)
    exact ⟨s.added order w ++ new, by rw [enlist_cons, hnew, append_assoc], (extends_added s order w).trans he⟩

/-- The objects in the places `order` are live, and those before the position `p` lead to no others. -/
structure Traced (s : Store) (roots : Array Word) (order : List Nat) (p : Nat) : Prop where
  nodup : order.Nodup
  bound : ∀ i ∈ order, i < s.objects.size
  live : ∀ i ∈ order, s.Live roots i
  closed : ∀ i ∈ order.take p, ∀ w ∈ (s.object i).words, s.Moves w → s.index w ∈ order

section Trace
variable {p : Nat}

theorem Live.get? (hi : i < s.objects.size) (h : s.Live roots i) :
    ∃ w, s.Reaches roots w ∧ s.get? w = some (s.object i) := by
  obtain ⟨w, hw, hm, rfl⟩ := h
  exact ⟨w, hw, by rw [get?_of_moves hm, getElem?_object hi]⟩

theorem Sound.words (hs : s.Sound roots) (hi : i < s.objects.size) :
    ∀ w ∈ (s.object i).words, s.Moves w → s.index w < s.objects.size :=
  hs.objects _ (Array.mem_of_getElem? (getElem?_object hi))

theorem Traced.length_le (h : s.Traced roots order p) : order.length ≤ s.objects.size := length_le_of_nodup h.nodup h.bound

theorem Traced.step (hs : s.Sound roots) (h : s.Traced roots order p) (hi : order[p]? = some i) :
    s.Traced roots (s.enlist order (s.object i).words) (p + 1) := by
  have hmem : i ∈ order := mem_of_getElem? hi
  have hlt := h.bound i hmem
  obtain ⟨new, hnew, he⟩ := enlist_extends s order (s.object i).words
  rw [hnew]
  refine ⟨he.nodup h.nodup, fun j hj => ?_, fun j hj => ?_, fun j hj w hw hm => ?_⟩
  · exact (mem_append.mp hj).elim (h.bound j) fun hj => (he.fresh j hj).1
  · -- what is added is led to by this object
    rcases mem_append.mp hj with hj | hj
    · exact h.live j hj
    · obtain ⟨-, w, hw, hm, hwj⟩ := he.fresh j hj
      obtain ⟨v, hv, hvo⟩ := (h.live i hmem).get? hlt
      exact ⟨w, hv.word hvo hw, hm, hwj⟩
  · have hp : p < order.length := (List.getElem?_eq_some_iff.mp hi).1
    rw [take_append_of_le_length (Nat.succ_le_of_lt hp), take_add_one, hi, Option.toList_some] at hj
    rcases mem_append.mp hj with hj | hj
    · exact mem_append_left _ (h.closed j hj w hw hm)
    · rw [mem_singleton.mp hj] at hw
      exact he.visited w hw hm (hs.words hlt w hw hm)

/-- There is time enough to go through all places. -/
theorem Traced.trace (hs : s.Sound roots) {fuel : Nat} (hfuel : s.objects.size < fuel + p) (hp : p ≤ order.length)
    (h : s.Traced roots order p) :
    ∃ new, s.trace fuel p order = order ++ new ∧ s.Traced roots (order ++ new) (order ++ new).length := by
  induction fuel generalizing order p with
  | zero =>
    have := h.length_le
    omega
  | succ fuel ih =>
    rw [Store.trace]
    cases hi : order[p]? with
    | none =>
      have hend : p = order.length := Nat.le_antisymm hp (List.getElem?_eq_none_iff.mp hi)
      exact ⟨[], (append_nil _).symm, by rwa [append_nil, ← hend]⟩
    | some i =>
      have hlt : p < order.length := (List.getElem?_eq_some_iff.mp hi).1
      obtain ⟨new, hnew, -⟩ := enlist_extends s order (s.object i).words
      have hstep := h.step hs hi
      rw [hnew] at hstep
      obtain ⟨new', hnew', hend⟩ := ih (by omega) (by rw [length_append]; omega) hstep
      refine ⟨new ++ new', ?_, by rwa [← append_assoc]⟩
      rw [← append_assoc, ← hnew', ← hnew]

end Trace

/-! ### The collection -/

/-- `s'` holds copies of the live objects of `s`, in the order of their places in `order`. -/
structure Transfer (s : Store) (roots : Array Word) (order : List Nat) (s' : Store) : Prop where
  nodup : order.Nodup
  bound : ∀ i ∈ order, i < s.objects.size ∧ s.constants.size + i < 2305843009213693952
  live : ∀ i ∈ order, s.Live roots i
  complete : ∀ {w}, s.Reaches roots w → s.Moves w → s.index w ∈ order
  constants : s'.constants = s.constants
  objects : s'.objects.toList = order.map fun i => (s.object i).map (s.forward order)
  used : s'.used = (order.map fun i => (s.object i).size).sum

theorem Traced.complete (hs : s.Sound roots) (h : s.Traced roots order order.length)
    (hroots : ∀ w ∈ roots, s.Moves w → s.index w ∈ order) (hw : s.Reaches roots w) (hm : s.Moves w) :
    s.index w ∈ order := by
  induction hw with
  | root hw => exact hroots _ hw hm
  | @word w v o hw ho hv ih =>
    by_cases hmw : s.Moves w
    · rw [get?_of_moves hmw] at ho
      rw [← object_of_getElem? ho] at hv
      exact h.closed _ (by rw [take_length]; exact ih hmw) v hv hm
    · exact absurd hm (hs.constants o (mem_constants_of_get? hmw ho) v hv)

theorem roots_traced (hs : s.Sound roots) :
    s.Traced roots (s.enlist [] roots.toList) 0 ∧ ∀ w ∈ roots, s.Moves w → s.index w ∈ s.enlist [] roots.toList := by
  obtain ⟨new, hnew, he⟩ := enlist_extends s [] roots.toList
  rw [nil_append] at hnew
  rw [hnew]
  refine ⟨⟨by simpa using he.nodup .nil, fun i hi => (he.fresh i hi).1, fun i hi => ?_, by simp⟩, fun w hw hm => ?_⟩
  · obtain ⟨-, w, hw, hm, hwi⟩ := he.fresh i hi
    exact ⟨w, .root (Array.mem_toList_iff.mp hw), hm, hwi⟩
  · simpa using he.visited w (Array.mem_toList_iff.mpr hw) hm (hs.roots w hw hm)

/-- All that the roots lead to is copied. -/
theorem copyOrder_traced (hs : s.Sound roots) :
    s.Traced roots (s.copyOrder roots) (s.copyOrder roots).length ∧
      ∀ w ∈ roots, s.Moves w → s.index w ∈ s.copyOrder roots := by
  obtain ⟨hstart, hvisited⟩ := roots_traced hs
  obtain ⟨new, hnew, hend⟩ := hstart.trace hs (Nat.lt_succ_self _) (Nat.zero_le _)
  rw [copyOrder, hnew]
  exact ⟨hend, fun w hw hm => mem_append_left _ (hvisited w hw hm)⟩

theorem size_foldr (os : List Object) : os.foldr (fun o n => o.size + n) 0 = (os.map Object.size).sum := by
  induction os with
  | nil => rfl
  | cons o os ih => rw [foldr_cons, ih, map_cons, sum_cons]

theorem collect_transfer (hs : s.Sound roots) :
    s.Transfer roots (s.copyOrder roots) (s.collect roots).2 := by
  obtain ⟨htraced, hroots⟩ := copyOrder_traced hs
  have hcomplete {w : Word} : s.Reaches roots w → s.Moves w → s.index w ∈ s.copyOrder roots := htraced.complete hs hroots
  exact
    { nodup := htraced.nodup
      bound := fun i hi => by
        obtain ⟨w, -, hm, rfl⟩ := htraced.live i hi
        exact ⟨htraced.bound _ hi, add_index hm ▸ Word.target_lt w⟩
      live := htraced.live
      complete := hcomplete
      constants := rfl
      objects := rfl
      used := by
        show foldr _ 0 _ = _
        rw [size_foldr, map_map]
        exact congrArg List.sum (map_congr_left fun i _ => Object.size_map _ _) }

namespace Transfer
variable {s' : Store} (h : s.Transfer roots order s')
include h

theorem moves (w : Word) : s'.Moves w ↔ s.Moves w := by rw [Moves, Moves, h.constants]

theorem size_objects : s'.objects.size = order.length := by rw [← Array.length_toList, h.objects, length_map]

theorem pointer (hm : s.Moves w) (hw : s.index w ∈ order) :
    s'.Moves (s.forward order w) ∧ s'.index (s.forward order w) = order.idxOf (s.index w) := by
  have hroom := pointer_room h.nodup (fun i hi => (h.bound i hi).2) (idxOf_lt_length_of_mem hw)
  have ht := Word.target_pointer hroom
  rw [forward_of_mem hm hw]
  refine ⟨⟨Word.isPointer_pointer hroom, ?_⟩, ?_⟩
  · rw [ht, h.constants]
    exact Nat.le_add_right ..
  · rw [Store.index, ht, h.constants, Nat.add_sub_cancel_left]

theorem moves_forward (hw : s.Reaches roots w) :
    s.Moves (s.forward order w) ↔ s.Moves w := by
  by_cases hm : s.Moves w
  · exact iff_of_true ((h.moves _).mp (h.pointer hm (h.complete hw hm)).1) hm
  · rw [forward_of_not hm]

theorem get?_forward (hs : s.Sound roots) (hw : s.Reaches roots w) :
    s'.get? (s.forward order w) = (s.get? w).map (·.map (s.forward order)) := by
  by_cases hm : s.Moves w
  · have hmem := h.complete hw hm
    obtain ⟨hm', hidx⟩ := h.pointer hm hmem
    rw [get?_of_moves hm', hidx, get?_of_moves hm, getElem?_object (h.bound _ hmem).1, ← Array.getElem?_toList, h.objects,
      getElem?_map, getElem?_idxOf hmem]
    rfl
  · -- a constant object, which holds no word that changes
    have hsame : s'.get? w = s.get? w := by
      unfold get?
      split
      · rename_i hp
        have hlt : w.target < s.constants.size := Nat.not_le.mp fun hle => hm ⟨hp, hle⟩
        rw [h.constants, if_pos hlt, if_pos hlt]
      · rfl
    rw [forward_of_not hm, hsame]
    cases ho : s.get? w with
    | none => rfl
    | some o =>
      have hself : o.map (s.forward order) = o := Object.map_eq_self fun v hv =>
        forward_of_not (hs.constants o (mem_constants_of_get? hm ho) v hv) order
      rw [Option.map_some, hself]

theorem sound (hs : s.Sound roots) : s'.Sound (roots.map (s.forward order)) := by
  have hnew : ∀ w, s.Reaches roots w → s'.Moves (s.forward order w) → s'.index (s.forward order w) < s'.objects.size := by
    intro w hw hm
    have hmw := (h.moves_forward hw).mp ((h.moves _).mp hm)
    rw [(h.pointer hmw (h.complete hw hmw)).2, h.size_objects]
    exact idxOf_lt_length_of_mem (h.complete hw hmw)
  refine ⟨fun o ho w hw hm => ?_, fun o ho w hw => ?_, fun w hw => ?_⟩
  · rw [h.constants] at ho
    exact hs.constants o ho w hw ((h.moves w).mp hm)
  · rw [← Array.mem_toList_iff, h.objects] at ho
    obtain ⟨i, hi, rfl⟩ := mem_map.mp ho
    rw [Object.words_map] at hw
    obtain ⟨u, hu, rfl⟩ := mem_map.mp hw
    obtain ⟨v, hv, hvo⟩ := (h.live i hi).get? (h.bound i hi).1
    exact hnew u (hv.word hvo hu)
  · obtain ⟨u, hu, rfl⟩ := Array.mem_map.mp hw
    exact hnew u (.root hu)

theorem used_eq_sum : s'.used = ∑ i ∈ s.live roots, (s.object i).size := by
  have hlive : s.live roots = order.toFinset := by
    ext i
    rw [mem_live, mem_toFinset]
    constructor
    · rintro ⟨-, w, hw, hm, rfl⟩
      exact h.complete hw hm
    · exact fun hi => ⟨(h.bound i hi).1, h.live i hi⟩
  rw [h.used, hlive, sum_toFinset _ h.nodup]

end Transfer

theorem grow_transfer (hs : s.Sound roots) : s.Transfer roots (s.copyOrder roots) (s.grow roots).2 :=
  { collect_transfer hs with }

end Store

end Scrap.Machine
