import Scrap.Machine.Memory
import Scrap.Proofs.Machine.Collection

/-! # Objects as words

The words of an object in memory, its tag word first, and which of them are values. -/

namespace Scrap.Machine

open List

variable {a b : Nat} {w : Word} {ws : List Word}

namespace Word
variable {kind size : Nat}

theorem toNat_tag (hk : kind < 256) (hs : size ≤ 4294967295) : (tag kind size).toNat = 256 * size + kind := by
  rw [tag, UInt64.toNat_or, toNat_shiftLeft_eight, UInt64.toNat_ofNat', UInt64.toNat_ofNat',
    show 256 * (size % 2 ^ 64) % 2 ^ 64 = 2 ^ 8 * size by omega, Nat.mod_eq_of_lt (by omega)]
  exact (Nat.two_pow_add_eq_or_of_lt (show kind < 2 ^ 8 from hk) size).symm

theorem kind_tag (hk : kind < 256) (hs : size ≤ 4294967295) : (tag kind size).kind = kind := by
  refine (toNat_and_low (tag kind size) 8 (by omega)).trans ?_
  rw [toNat_tag hk hs]
  omega

theorem extent_tag (hk : kind < 256) (hs : size ≤ 4294967295) : (tag kind size).extent = size / 8 := by
  rw [extent, UInt64.toNat_shiftRight, show (8 : UInt64).toNat % 64 = 8 from rfl, Nat.shiftRight_eq_div_pow,
    toNat_tag hk hs]
  omega

theorem isAddress_iff : w.isAddress = true ↔ w.toNat % 2 = 0 := by
  have h := toNat_and_low w 1 (by omega)
  simp only [isAddress, decide_eq_true_eq, ← UInt64.toNat_inj]
  exact Eq.congr_left h

theorem toNat_address (ha : a < 2305843009213693952) : (address a).toNat = 8 * a := by
  rw [address, UInt64.toNat_ofNat']
  omega

theorem target_address (ha : a < 2305843009213693952) : (address a).target = a := by
  rw [target, toNat_address ha]
  omega

end Word

/-! ### Objects as words -/

/-- A word of an object: one that a collection leaves as it is, or a value. -/
inductive Slot where
  | fixed (w : Word)
  | value (w : Word)

namespace Slot

/-- The word in memory, where the function says how values are written. -/
def word (f : Word → Word) : Slot → Word
  | fixed w => w
  | value w => f w

def values : List Slot → List Word
  | [] => []
  | fixed _ :: slots => values slots
  | value w :: slots => w :: values slots

/-- The addresses of the values of slots that begin at an address. -/
def addresses : Nat → List Slot → List Nat
  | _, [] => []
  | a, fixed _ :: slots => addresses (a + 1) slots
  | a, value _ :: slots => a :: addresses (a + 1) slots

theorem values_value (ws : List Word) : values (ws.map value) = ws := by
  induction ws with
  | nil => rfl
  | cons w ws ih => rw [map_cons, values, ih]

theorem values_fixed (ws : List Word) : values (ws.map fixed) = [] := by
  induction ws with
  | nil => rfl
  | cons w ws ih => rw [map_cons, values, ih]

theorem addresses_fixed (a : Nat) (ws : List Word) : addresses a (ws.map fixed) = [] := by
  induction ws generalizing a with
  | nil => rfl
  | cons w ws ih => rw [map_cons, addresses, ih]

theorem addresses_value (a : Nat) (ws : List Word) :
    addresses a (ws.map value) = (range ws.length).map (a + ·) := by
  induction ws generalizing a with
  | nil => rfl
  | cons w ws ih =>
    rw [map_cons, addresses, ih, length_cons, range_succ_eq_map, map_cons, map_map]
    exact congrArg _ (map_congr_left fun k _ => by simp only [Function.comp_apply]; omega)

end Slot

/-- The words of a text, eight bytes in each, the first byte lowest. -/
def textWords (bytes : List UInt8) : List Word :=
  (range ((bytes.length + 7) / 8)).map fun k =>
    ((bytes.drop (8 * k)).take 8).foldr (fun b w => (w <<< 8) ||| b.toUInt64) 0

namespace Object
variable {code : String → Word} {f : Word → Word} {o : Object} {m : Memory}

def kind : Object → Nat
  | .list .. => 1
  | .closure .. => 3
  | .record _ => 5
  | .string _ => 7
  | .variant .. => 9

def fieldSlots (fields : List (Nat × Word)) : List Slot :=
  fields.flatMap fun p => [.fixed (UInt64.ofNat p.1), .value p.2]

/-- What follows the tag word. The addresses of functions are given by `code`. -/
def body (code : String → Word) : Object → List Slot
  | .list a b => [.value a, .value b]
  | .closure f ws => .fixed (code f) :: .fixed (UInt64.ofNat ws.length) :: ws.map .value
  | .record fields => .fixed (UInt64.ofNat fields.length) :: fieldSlots fields
  | .string bytes => .fixed (UInt64.ofNat bytes.length) :: (textWords bytes).map .fixed
  | .variant t w => [.fixed (UInt64.ofNat t), .value w]

def slots (code : String → Word) (o : Object) : List Slot := .fixed (.tag o.kind o.size) :: o.body code

/-- The words of an object in memory. -/
def image (code : String → Word) (f : Word → Word) (o : Object) : List Word := (o.slots code).map (Slot.word f)

def extent (o : Object) : Nat := o.size / 8

theorem kind_lt (o : Object) : o.kind < 256 := by cases o <;> simp [kind]

theorem kind_odd (o : Object) : o.kind % 2 = 1 := by cases o <;> simp [kind]

theorem extent_pos (o : Object) : 0 < o.extent := by
  cases o <;> simp only [extent, size, aligned] <;> omega

theorem length_fieldSlots (fields : List (Nat × Word)) : (fieldSlots fields).length = 2 * fields.length := by
  induction fields with
  | nil => rfl
  | cons p fields ih => simp only [fieldSlots, flatMap_cons, length_append, length_cons, length_nil] at ih ⊢; omega

/-- The size of an object is that of its words. -/
theorem length_slots (code : String → Word) (o : Object) : 8 * (o.slots code).length = o.size := by
  cases o <;> simp [slots, body, size, aligned, textWords, length_fieldSlots] <;> omega

theorem length_image (code : String → Word) (f : Word → Word) (o : Object) : (o.image code f).length = o.extent := by
  have := length_slots code o
  rw [image, length_map, extent]
  omega

theorem size_eq (o : Object) : o.size = 8 * o.extent := by
  have := length_slots (fun _ => 0) o
  rw [extent]
  omega

theorem image_map (f g : Word → Word) (o : Object) : (o.map g).image code f = o.image code (f ∘ g) := by
  cases o <;> simp [image, slots, map, body, fieldSlots, Slot.word, kind, size, Function.comp_def, flatMap_map, map_flatMap]

theorem image_congr {g : Word → Word} (h : ∀ w ∈ o.words, f w = g w) : o.image code f = o.image code g := by
  have := congrArg (image code id) (map_congr h)
  rwa [image_map, image_map] at this

theorem values_fieldSlots (fields : List (Nat × Word)) : Slot.values (fieldSlots fields) = fields.map Prod.snd := by
  induction fields with
  | nil => rfl
  | cons p fields ih => exact congrArg (p.2 :: ·) ih

theorem values_slots (code : String → Word) (o : Object) : Slot.values (o.slots code) = o.words := by
  cases o with
  | list a b => rfl
  | closure f ws => exact Slot.values_value ws
  | record fields => exact values_fieldSlots fields
  | string bytes => exact Slot.values_fixed _
  | variant t w => rfl

theorem addresses_fieldSlots (a : Nat) (fields : List (Nat × Word)) :
    Slot.addresses a (fieldSlots fields) = (range fields.length).map (a + 1 + 2 * ·) := by
  induction fields generalizing a with
  | nil => rfl
  | cons p fields ih =>
    show (a + 1) :: Slot.addresses (a + 1 + 1) (fieldSlots fields) = _
    rw [ih, length_cons, range_succ_eq_map, map_cons, map_map]
    exact congrArg _ (map_congr_left fun k _ => by simp only [Function.comp_apply]; omega)

end Object

/-! ### Words in a row -/

/-- From an address on, memory has the words. -/
def Spells (cell : Nat → Word) : Nat → List Word → Prop
  | _, [] => True
  | a, w :: ws => cell a = w ∧ Spells cell (a + 1) ws

section Spells
variable {cell cell' : Nat → Word}

instance decidableSpells (cell : Nat → Word) : ∀ a ws, Decidable (Spells cell a ws)
  | _, [] => .isTrue trivial
  | a, _ :: ws => have := decidableSpells cell (a + 1) ws; inferInstanceAs (Decidable (_ ∧ _))

theorem spells_append {vs : List Word} : Spells cell a (vs ++ ws) ↔ Spells cell a vs ∧ Spells cell (a + vs.length) ws := by
  induction vs generalizing a with
  | nil => simp [Spells]
  | cons v vs ih =>
    rw [cons_append, Spells, Spells, ih, length_cons, and_assoc, Nat.add_assoc, Nat.add_comm 1]

/-- What reads the same spells the same. -/
theorem Spells.of_eq (h : Spells cell a ws) (heq : ∀ k < ws.length, cell' (b + k) = cell (a + k)) : Spells cell' b ws := by
  induction ws generalizing a b with
  | nil => trivial
  | cons w ws ih =>
    refine ⟨(heq 0 (by simp)).trans h.1, ih h.2 fun k hk => ?_⟩
    have := heq (k + 1) (by simpa using hk)
    rwa [Nat.add_comm k, ← Nat.add_assoc, ← Nat.add_assoc] at this

end Spells

theorem Object.valueCells_eq {code : String → Word} {f : Word → Word} {o : Object} {m : Memory}
    (h : Spells m.cell a (o.image code f)) (hs : o.size ≤ 4294967295) :
    m.valueCells a = some (Slot.addresses a (o.slots code)) := by
  have hkind : (m.cell a).kind = o.kind := by rw [h.1]; exact Word.kind_tag o.kind_lt hs
  have hcount {n : Nat} (hn : n ≤ 4294967295) : (UInt64.ofNat n).toNat = n := by rw [UInt64.toNat_ofNat']; omega
  unfold Memory.valueCells
  rw [hkind]
  cases o with
  | list a b => rfl
  | closure f ws =>
    have hn : (m.cell (a + 2)).toNat = ws.length := by
      rw [show m.cell (a + 2) = _ from h.2.2.1]
      exact hcount (by simp only [size] at hs; omega)
    show some ((range (m.cell (a + 2)).toNat).map (a + 3 + ·)) = _
    rw [hn, ← Slot.addresses_value]
    rfl
  | record fields =>
    have hn : (m.cell (a + 1)).toNat = fields.length := by
      rw [show m.cell (a + 1) = _ from h.2.1]
      exact hcount (by simp only [size] at hs; omega)
    show some ((range (m.cell (a + 1)).toNat).map (a + 3 + 2 * ·)) = _
    rw [hn]
    exact congrArg some (addresses_fieldSlots (a + 2) fields).symm
  | string bytes => exact congrArg some (Slot.addresses_fixed (a + 2) (textWords bytes)).symm
  | variant t w => rfl

end Scrap.Machine
