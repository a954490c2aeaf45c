import Scrap.Proofs.Machine.Collection
import Scrap.Proofs.Machine.Running

/-! # Values that move

The object of a record has its fields in some order. An allocation or a collection may move objects; the words on the
stack change with them, and stand for the same values as before. -/

namespace Scrap

def Term.isFunction : Term → Bool
  | .function _ _ _ | .matchFunction _ _ | .closure _ _ => true
  | _ => false

namespace Machine

open Code Compile

variable {roots : Array Word} {m : Image} {x : Object} {s : State} {store : Store} {o : Term} {f : Word → Word}
  {w : Word}

/-! ### Words of all values -/

/-- A word stands for a value, which may hold records and functions; which closure a function has plays no role. -/
inductive Stands (m : Image) (store : Store) : Word → Term → Prop
  | immediate {w : Word} {o : Term} (h : Shows m {} w o) : Stands m store w o
  | long (i : Nat) {s : String} {w : Word} (hs : Text.isAscii s = true)
    (hw : store.get? w = some (.string (Text.utf8 s))) : Stands m store w (.string i s)
  | truth (i : Nat) (b : Bool) : Stands m store (Word.int (if b then 1 else 0)) (.truth i b)
  | cons (i j : Nat) {w a b : Word} {t : Term} {ts : List Term} (hw : store.get? w = some (.list a b))
    (ha : Stands m store a t) (hb : Stands m store b (.list j ts)) : Stands m store w (.list i (t :: ts))
  | boxed (i : Nat) {w v : Word} {t : String} {o : Term} (ht : t ∈ m.program.tags)
    (hw : store.get? w = some (.variant (m.tag t) v)) (hv : Stands m store v o) : Stands m store w (.variant i t o)
  | function {w : Word} {o : Term} {f : String} {ws : List Word} (ho : o.isFunction = true)
    (hw : store.get? w = some (.closure f ws)) : Stands m store w o
  | record (i : Nat) {w : Word} {fields : Dict Term} {slots : List (Nat × Word)} (value : String → Word)
    (hfields : fields.Proper) (hkeys : fields.keys ⊆ m.program.keys) (hw : store.get? w = some (.record slots))
    (hslots : slots.Perm (fields.keys.map fun k => (m.key k, value k)))
    (hvalue : ∀ k v, (k, v) ∈ fields → Stands m store (value k) v) : Stands m store w (.record i fields)

theorem Shows.low (h : Shows m {} w o) : w.toNat % 8 ≠ 1 := by
  have hempty (w : Word) : ({} : Store).get? w = none := by simp [Store.get?]
  have hlow := h.marked
  cases h with
  | long i hs hlen hw | cons i j hw | boxed i ht hw =>
    rw [hempty] at hw
    cases hw
  | @tag i j t ht =>
    have := Word.variant_low (m.tag t)
    omega
  | @short i s hs hlen =>
    have := Word.shortString_low (show (Text.utf8 s).length ≤ 7 by rw [Text.utf8_length hs]; omega)
    omega
  | _ =>
    simp only [Marked] at hlow
    omega

namespace Stands
variable {w : Word}

theorem eq_zero_iff (h : Stands m store w o) : w = 0 ↔ o.int? = some 0 := by
  have hzero : Word.int 0 = 0 := by decide
  cases h with
  | immediate h => rw [← hzero, h.eq_int_iff (by decide)]
  | truth i b => cases b <;> simp [Term.int?] <;> decide
  | long i hs hw | cons i j hw | boxed i ht hw | record i value hfields hkeys hw =>
    have hlow := Store.get?_low hw
    refine ⟨fun heq => ?_, fun heq => by cases heq⟩
    rw [heq] at hlow
    cases hlow
  | function ho hw =>
    have hlow := Store.get?_low hw
    refine ⟨fun heq => ?_, fun heq => ?_⟩
    · rw [heq] at hlow
      cases hlow
    · cases o <;> cases ho <;> cases heq

end Stands

/-! ### Words that are renamed with their objects -/

section Renaming
variable {s s' : Store} {w : Word}

theorem not_moves_of_low (h : w.toNat % 8 ≠ 1) (s : Store) : ¬s.Moves w := fun hm => h (Word.isPointer_iff.mp hm.1)

theorem get?_rename (hobjects : ∀ w, s.Reaches roots w → s'.get? (f w) = (s.get? w).map (·.map f))
    (hw : s.Reaches roots w) (hget : s.get? w = some x) : s'.get? (f w) = some (x.map f) := by
  rw [hobjects w hw, hget]
  rfl

/-- A word stands for the same value when all objects that it leads to are renamed. -/
theorem Stands.rename (hfix : ∀ w, ¬s.Moves w → f w = w)
    (hobjects : ∀ w, s.Reaches roots w → s'.get? (f w) = (s.get? w).map (·.map f)) (hw : s.Reaches roots w)
    (h : Stands m s w o) : Stands m s' (f w) o := by
  induction h with
  | immediate h =>
    rw [hfix _ (not_moves_of_low h.low s)]
    exact .immediate h
  | long i hs hget => exact .long i hs (get?_rename hobjects hw hget)
  | truth i b =>
    have := Word.int_even (if b then 1 else 0)
    rw [hfix _ (not_moves_of_low (by omega) s)]
    exact .truth i b
  | cons i j hget ha hb iha ihb =>
    exact .cons i j (get?_rename hobjects hw hget) (iha (hw.word hget (by simp [Object.words])))
      (ihb (hw.word hget (by simp [Object.words])))
  | boxed i ht hget hv ih =>
    exact .boxed i ht (get?_rename hobjects hw hget) (ih (hw.word hget (by simp [Object.words])))
  | function ho hget => exact .function ho (get?_rename hobjects hw hget)
  | @record i w fields slots value hfields hkeys hget hslots hvalue ih =>
    have hslots' := hslots.map fun p : Nat × Word => (p.1, f p.2)
    rw [List.map_map] at hslots'
    refine .record i (fun k => f (value k)) hfields hkeys (get?_rename hobjects hw hget) hslots' fun k v hk => ?_
    have hmem : (m.key k, value k) ∈ slots := hslots.mem_iff.mpr (List.mem_map.mpr ⟨k, List.mem_map_of_mem hk, rfl⟩)
    exact ih k v hk (hw.word hget (List.mem_map_of_mem hmem))

end Renaming

/-! ### Steps that move objects -/

abbrev Store.total (store : Store) : Nat := store.constants.size + store.objects.size

/-- The objects that the stack leads to may have moved, and nothing else has happened to them. -/
structure Moved (f : Word → Word) (s s' : State) : Prop where
  stack : s'.stack = s.stack.map f
  fixed : ∀ w, ¬s.store.Moves w → f w = w
  objects : ∀ w, s.store.Reaches s.stack w → s'.store.get? (f w) = (s.store.get? w).map (·.map f)
  sound : s'.store.Sound s'.stack
  constants : s'.store.constants = s.store.constants
  size : s'.store.objects.size ≤ s.store.objects.size

namespace Moved
variable {s' : State}

theorem refl (hs : s.store.Sound s.stack) : Moved id s s where
  stack := by simp
  fixed _ _ := rfl
  objects w _ := by
    have hself : (fun x : Object => x.map id) = id := funext fun x => Object.map_eq_self fun _ _ => rfl
    rw [hself, Option.map_id]
    rfl
  sound := hs
  constants := rfl
  size := Nat.le_refl _

theorem holds (h : Moved f s s') {frame : Frame} {x : String} (hw : Holds frame s x w) : Holds frame s' x (f w) := by
  obtain ⟨i, hi, hget⟩ := hw
  refine ⟨i, hi, ?_⟩
  rw [h.stack, Array.getElem?_map, hget]
  rfl

theorem stands (h : Moved f s s') (hw : s.store.Reaches s.stack w)
    (ho : Stands m s.store w o) : Stands m s'.store (f w) o :=
  ho.rename h.fixed h.objects hw

end Moved

theorem Store.Transfer.moved {store' : Store} {order : List Nat} (hs : store.Sound roots)
    (h : store.Transfer roots order store') :
    Moved (store.forward order) ⟨store, roots⟩ ⟨store', roots.map (store.forward order)⟩ where
  stack := rfl
  fixed _ hw := Store.forward_of_not hw order
  objects _ hw := h.get?_forward hs hw
  sound := h.sound hs
  constants := h.constants
  size := by
    show store'.objects.size ≤ store.objects.size
    rw [← Array.length_toList, h.objects, List.length_map]
    exact Store.length_le_of_nodup h.nodup fun i hi => (h.bound i hi).1

theorem moved_collect (hs : s.store.Sound s.stack) :
    ∃ f s', outcome Machine.collect s = (.ok (), s') ∧ Moved f s s' :=
  ⟨_, ⟨(s.store.collect s.stack).2, (s.store.collect s.stack).1⟩, rfl, (Store.collect_transfer hs).moved hs⟩

theorem outcome_allocate {r : Option Word} {stack : Array Word} (h : s.store.allocate s.stack x = (r, stack, store)) :
    outcome (allocate x) s = (r.elim (.error (.report "out of memory")) .ok, ⟨store, stack⟩) := by
  show outcome (modifyGet (fun s : State =>
    ((s.store.allocate s.stack x).1, State.mk (s.store.allocate s.stack x).2.2 (s.store.allocate s.stack x).2.1)) >>= _) s = _
  have hmodify : outcome (modifyGet (fun s : State => ((s.store.allocate s.stack x).1,
      State.mk (s.store.allocate s.stack x).2.2 (s.store.allocate s.stack x).2.1)) : RunM (Option Word)) s =
      (.ok r, ⟨store, stack⟩) := by
    show (Except.ok (s.store.allocate s.stack x).1, State.mk (s.store.allocate s.stack x).2.2 _) = _
    rw [h]
  rw [bind_ok hmodify]
  cases r <;> rfl

/-- An allocation adds the object behind the others, which may have moved, unless there is no room. -/
theorem moved_allocate (hs : s.store.Sound s.stack) (x : Object) :
    (outcome (allocate x) s).1 = .error (.report "out of memory") ∨
      ∃ f s', Moved f s s' ∧ outcome (allocate x) s =
        (.ok (Word.pointer s'.store.total), { s' with store := (s'.store.push x).2 }) := by
  by_cases hfree : x.size ≤ s.store.free
  · have hpush : s.store.allocate s.stack x = (some (s.store.push x).1, s.stack, (s.store.push x).2) := by
      rw [Store.allocate, if_pos hfree]
    exact .inr ⟨id, s, .refl hs, outcome_allocate hpush⟩
  have hmoved : Moved (s.store.forward (s.store.copyOrder s.stack)) s ⟨(s.store.grow s.stack).2, (s.store.grow s.stack).1⟩ :=
    Store.Transfer.moved hs (Store.grow_transfer hs)
  by_cases hroom : x.size ≤ (s.store.grow s.stack).2.free
  · have hpush : s.store.allocate s.stack x =
        (some ((s.store.grow s.stack).2.push x).1, (s.store.grow s.stack).1, ((s.store.grow s.stack).2.push x).2) := by
      rw [Store.allocate, if_neg hfree]
      exact if_pos hroom
    exact .inr ⟨_, _, hmoved, outcome_allocate hpush⟩
  · have hnone : s.store.allocate s.stack x = (none, (s.store.grow s.stack).1, (s.store.grow s.stack).2) := by
      rw [Store.allocate, if_neg hfree]
      exact if_neg hroom
    exact .inl (congrArg Prod.fst (outcome_allocate hnone))

/-! ### A new object -/

def State.withObject (s : State) (x : Object) (used : Nat) : State where
  store := { s.store with objects := s.store.objects.push x, used }
  stack := s.stack.push (Word.pointer s.store.total)

section
variable {used : Nat}

theorem Store.Reaches.index_lt (hs : store.Sound roots)
    (hw : store.Reaches roots w) (hm : store.Moves w) : store.index w < store.objects.size := by
  cases hw with
  | root hw => exact hs.roots w hw hm
  | @word v _ y hv hy hw =>
    by_cases hmv : store.Moves v
    · rw [Store.get?_of_moves hmv] at hy
      exact hs.objects y (Array.mem_of_getElem? hy) w hw hm
    · exact absurd hm (hs.constants y (Store.mem_constants_of_get? hmv hy) w hw)

theorem get?_withObject (hroom : s.store.total < 2305843009213693952) :
    (s.withObject x used).store.get? (Word.pointer s.store.total) = some x := by
  rw [Store.get?_pointer hroom, if_neg (by simp [State.withObject]), State.withObject]
  simp

theorem get?_withObject_of_reaches (hs : s.store.Sound s.stack) (hw : s.store.Reaches s.stack w) :
    (s.withObject x used).store.get? w = s.store.get? w := by
  unfold Store.get?
  split
  · rename_i hp
    by_cases hlt : w.target < s.store.constants.size
    · rw [if_pos hlt, if_pos (by exact hlt)]
      rfl
    · have hm : s.store.Moves w := ⟨hp, Nat.not_lt.mp hlt⟩
      have hidx := hw.index_lt hs hm
      rw [if_neg hlt, if_neg (by exact hlt)]
      show (s.store.objects.push x)[_]? = _
      rw [Array.getElem?_push, if_neg (by exact Nat.ne_of_lt hidx)]
      rfl
  · rfl

theorem sound_withObject (hs : s.store.Sound s.stack)
    (hroom : s.store.total < 2305843009213693952)
    (hx : ∀ w ∈ x.words, s.store.Moves w → s.store.index w < s.store.objects.size) :
    (s.withObject x used).store.Sound (s.withObject x used).stack where
  constants := hs.constants
  objects y hy w hw hm := by
    show s.store.index w < (s.store.objects.push x).size
    rw [Array.size_push]
    rcases Array.mem_push.mp hy with hy | rfl
    · exact Nat.lt_succ_of_lt (hs.objects y hy w hw hm)
    · exact Nat.lt_succ_of_lt (hx w hw hm)
  roots w hw hm := by
    show s.store.index w < (s.store.objects.push x).size
    rw [Array.size_push]
    rcases Array.mem_push.mp hw with hw | rfl
    · exact Nat.lt_succ_of_lt (hs.roots w hw hm)
    · rw [Store.index, Word.target_pointer hroom, Nat.add_sub_cancel_left]
      exact Nat.lt_succ_self _

end

end Machine

end Scrap
