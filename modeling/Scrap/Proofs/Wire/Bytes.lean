import Scrap.Proofs.Runs
import Scrap.Proofs.Text.Utf8
import Mathlib.Algebra.Ring.Nat

/-! # Reading back numbers and texts

A decoder that stands before the bytes of a number or a text reads it and stands behind them. -/

namespace Scrap.Wire

/-! ### Numbers as bytes -/

theorem unzigzag_zigzag (n : Int) : unzigzag (zigzag n) = n := by
  unfold unzigzag zigzag
  split <;> split <;> omega

theorem length_littleEndian (count n : Nat) : (littleEndian count n).length = count := by
  induction count generalizing n with
  | zero => rfl
  | succ count ih => simp [littleEndian, ih]

theorem ofLittleEndian_littleEndian (count n : Nat) : ofLittleEndian (littleEndian count n) = n % 256 ^ count := by
  induction count generalizing n with
  | zero => simp [littleEndian, ofLittleEndian, Nat.mod_one]
  | succ count ih =>
    simp only [littleEndian, ofLittleEndian, ih]
    rw [Text.toNat_ofNat_of_lt (Nat.mod_lt _ (by decide)), Nat.pow_succ, Nat.mul_comm (256 ^ count), Nat.mod_mul]

theorem digit_lt {n d : Nat} : ∀ {fuel : Nat}, d ∈ digitsWithin fuel n → d < 18446744073709551616
  | 0, h => by cases h
  | fuel + 1, h => by
    rw [digitsWithin] at h
    split at h
    · cases h
    · rcases List.mem_cons.mp h with rfl | h
      · exact Nat.mod_lt _ (by decide)
      · exact digit_lt h

theorem ofDigits_digitsWithin {fuel n : Nat} (h : n < 2 ^ fuel) : ofDigits (digitsWithin fuel n) = n := by
  induction fuel generalizing n with
  | zero =>
    have : n = 0 := by simpa using h
    simp [digitsWithin, ofDigits, this]
  | succ fuel ih =>
    rw [digitsWithin]
    split
    · simp_all [ofDigits]
    · have hlt : n / 18446744073709551616 < 2 ^ fuel := by
        rw [Nat.pow_succ] at h
        omega
      have hor := Nat.two_pow_add_eq_or_of_lt (i := 64) (Nat.mod_lt n (by decide)) (n / 18446744073709551616)
      rw [ofDigits, ih hlt, Nat.mul_comm, ← hor]
      exact Nat.div_add_mod n 18446744073709551616

theorem lt_two_pow_log2_succ (n : Nat) : n < 2 ^ (Nat.log2 n + 1) := Nat.lt_log2_self

theorem ofDigits_digits (n : Nat) : ofDigits (digits n) = n := ofDigits_digitsWithin (lt_two_pow_log2_succ n)

end Scrap.Wire

namespace Scrap.Decoder

open Wire

variable {d : Decoder} {bs rest : List UInt8}

/-! ### The position of a decoder -/

/-- The decoder stands before `rest`, the last of its bytes. -/
def Ahead (d : Decoder) (rest : List UInt8) : Prop :=
  ∃ p : Nat, d.index = p ∧ p + rest.length = d.data.size ∧ d.data.toList.drop p = rest

/-- The decoder some bytes on. -/
def past (d : Decoder) (count : Nat) : Decoder := { d with index := d.index + count }

@[simp] theorem past_zero (d : Decoder) : d.past 0 = d := by simp [past]

@[simp] theorem past_past (d : Decoder) (m n : Nat) : (d.past m).past n = d.past (m + n) := by
  simp [past, Int.add_assoc]

@[simp] theorem past_known (d : Decoder) (n : Nat) : (d.past n).known = d.known := rfl

@[simp] theorem past_heap (d : Decoder) (n : Nat) : (d.past n).heap = d.heap := rfl

theorem Ahead.past (h : d.Ahead (bs ++ rest)) : (d.past bs.length).Ahead rest := by
  obtain ⟨p, hp, hsize, hdrop⟩ := h
  refine ⟨p + bs.length, by simp [Decoder.past, hp], ?_, ?_⟩
  · simpa [Decoder.past, Nat.add_assoc] using hsize
  · show d.data.toList.drop (p + bs.length) = rest
    rw [← List.drop_drop, hdrop, List.drop_left]

theorem Ahead.length_le (h : d.Ahead rest) : rest.length ≤ d.data.size := by
  obtain ⟨p, _, hsize, _⟩ := h
  omega

/-- From before `bs`, the computation gives `a` and stands behind `bs`, whatever follows. -/
def Reads {α : Type} (m : DecodeM α) (bs : List UInt8) (a : α) : Prop :=
  ∀ (d : Decoder) (rest : List UInt8), d.Ahead (bs ++ rest) → outcome m d = (.ok a, d.past bs.length)

section Reads
variable {α β : Type} {m : DecodeM α} {f : α → DecodeM β} {a : α} {b : β}

theorem Reads.pure (a : α) : Reads (Pure.pure a) [] a := fun d _ _ => by
  rw [List.length_nil, past_zero]
  rfl

theorem Reads.bind {cs : List UInt8} (hm : Reads m bs a)
    (hf : Reads (f a) cs b) : Reads (m >>= f) (bs ++ cs) b := fun d rest h => by
  rw [List.append_assoc] at h
  rw [bind_ok (hm d _ h), hf _ rest h.past, past_past, List.length_append]

theorem Reads.last (hm : Reads m bs a) (hf : Reads (f a) [] b) : Reads (m >>= f) bs b := by
  have h := hm.bind hf
  rwa [List.append_nil] at h

theorem reads_read {size : Int} (hs : size = bs.length) : Reads (read size) bs bs := fun d rest h => by
  subst hs
  obtain ⟨p, hp, hsize, hdrop⟩ := h
  have clamped : ∀ i : Nat, i ≤ d.data.size → clamp d.data.size (i : Int) = i := by
    intro i hi
    unfold clamp
    rw [if_neg (by omega), if_neg (by omega)]
    omega
  have hstop : (p : Int) + (bs.length : Nat) = ((p + bs.length : Nat) : Int) := by omega
  rw [List.length_append] at hsize
  show (Except.ok (slice d.data d.index (d.index + bs.length)), d.past bs.length) = _
  rw [slice, hp, hstop, clamped p (by omega), clamped (p + bs.length) (by omega)]
  congr 2
  rw [Array.toList_extract, List.extract_eq_take_drop, Nat.add_sub_cancel_left, hdrop, List.take_left]

theorem reads_readByte (b : UInt8) : Reads readByte [b] b := fun d rest h => by
  have hread : Reads (read 1) [b] [b] := reads_read rfl
  rw [readByte, bind_ok (hread d rest h)]
  rfl

theorem reads_readVarint {n : Nat} : ∀ {fuel count : Nat}, n < 2 ^ (fuel + 1) → (varintWithin fuel n).length ≤ count →
    Reads (readVarint count) (varintWithin fuel n) n := by
  intro fuel
  induction fuel generalizing n with
  | zero =>
    intro count hn hlen
    obtain ⟨count, rfl⟩ : ∃ c, count = c + 1 := ⟨count - 1, by simp [varintWithin] at hlen; omega⟩
    have hbyte : (UInt8.ofNat (n % 128)).toNat = n := by
      rw [Text.toNat_ofNat_of_lt (by omega)]
      omega
    rw [varintWithin, readVarint]
    refine (reads_readByte _).last ?_
    rw [hbyte, if_pos (by omega), Nat.mod_eq_of_lt (by omega)]
    exact Reads.pure n
  | succ fuel ih =>
    intro count hn hlen
    rw [varintWithin] at hlen ⊢
    by_cases hlow : n < 128
    · rw [if_pos hlow] at hlen ⊢
      obtain ⟨count, rfl⟩ : ∃ c, count = c + 1 := ⟨count - 1, by simp at hlen; omega⟩
      rw [readVarint]
      refine (reads_readByte _).last ?_
      rw [Text.toNat_ofNat_of_lt (by omega), if_pos hlow, Nat.mod_eq_of_lt hlow]
      exact Reads.pure n
    · rw [if_neg hlow] at hlen ⊢
      obtain ⟨count, rfl⟩ : ∃ c, count = c + 1 := ⟨count - 1, by simp at hlen; omega⟩
      rw [readVarint]
      rw [← List.singleton_append]
      refine (reads_readByte _).bind ?_
      rw [Text.toNat_ofNat_of_lt (by omega), if_neg (by omega)]
      have hquot : n / 128 < 2 ^ (fuel + 1) := by
        rw [Nat.pow_succ] at hn
        omega
      refine (ih hquot (by simpa using hlen)).last ?_
      rw [show (n % 128 + 128) % 128 + 128 * (n / 128) = n by omega]
      exact Reads.pure n

theorem reads_readShort (n : Int) : Reads readShort (short n) n := fun d rest h => by
  have hlen := h.length_le
  rw [List.length_append] at hlen
  have hread : Reads (readVarint (d.data.size + d.index.natAbs + 1)) (short n) (zigzag n) :=
    reads_readVarint (lt_two_pow_log2_succ _) (by unfold short varint at hlen; omega)
  show outcome (readVarint (d.data.size + d.index.natAbs + 1) >>= fun m => Pure.pure (unzigzag m)) d = _
  rw [bind_ok (hread d rest h), unzigzag_zigzag]
  rfl

theorem reads_readDigits {ds : List Nat} (h : ∀ d ∈ ds, d < 18446744073709551616) :
    Reads (readDigits ds.length) (ds.map (littleEndian 8)).flatten ds := by
  induction ds with
  | nil => exact Reads.pure []
  | cons n ds ih =>
    rw [List.map_cons, List.flatten_cons, List.length_cons, readDigits]
    refine (reads_read (congrArg Nat.cast (length_littleEndian 8 n)).symm).bind ?_
    have hn : n % 256 ^ 8 = n := Nat.mod_eq_of_lt (h n (.head _))
    rw [ofLittleEndian_littleEndian, hn]
    exact (ih fun d hd => h d (.tail _ hd)).last (Reads.pure _)

theorem reads_readLong (n : Int) : Reads readLong (long n) n := by
  unfold readLong long
  refine (reads_readShort _).bind ?_
  rw [Int.toNat_natCast]
  have hread : Reads (readDigits (digits (zigzag n)).length) _ (digits (zigzag n)) :=
    reads_readDigits fun d hd => digit_lt hd
  refine hread.last ?_
  rw [ofDigits_digits, unzigzag_zigzag]
  exact Reads.pure n

theorem reads_readString (s : String) : Reads readString (string s) s := by
  unfold readString string
  refine (reads_readShort _).bind ?_
  have hread : Reads (read (Text.utf8 s).length) (Text.utf8 s) (Text.utf8 s) := reads_read rfl
  refine hread.last ?_
  rw [Text.ofUtf8_utf8]
  exact Reads.pure s

end Reads

end Scrap.Decoder
