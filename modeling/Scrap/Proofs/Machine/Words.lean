import Mathlib.Data.Nat.Bitwise
import Mathlib.Data.Nat.ModEq
import Mathlib.Tactic.NormNum
import Scrap.Machine.Word

/-! # What tells words apart

The low bits of a word say what it is. Within a kind, integers that fit, small tags and short texts have words of their
own; what a pattern looks for as a short text is the word of that text as long as its bytes are below 128. -/

namespace Scrap.Machine.Word

open List

variable {as : List UInt8} {x : Word} {n : Int} {bs : List UInt8} {t : Nat} {w : Word}

/-! ### Low bits -/

theorem toNat_and_low (w : Word) (k : Nat) (hk : k < 64) :
    (w &&& UInt64.ofNat (2 ^ k - 1)).toNat = w.toNat % 2 ^ k := by
  have hlt : 2 ^ k - 1 < 2 ^ 64 := by
    have := Nat.pow_lt_pow_right (show 1 < 2 by omega) hk
    omega
  rw [UInt64.toNat_and, UInt64.toNat_ofNat', Nat.mod_eq_of_lt hlt, Nat.and_two_pow_sub_one_eq_mod]

theorem isShortString_iff : w.isShortString = true ↔ w.toNat % 32 = 13 := by
  have h := toNat_and_low w 5 (by omega)
  simp only [isShortString, decide_eq_true_eq, ← UInt64.toNat_inj]
  simpa using Eq.congr_left h

theorem isVariant_iff : w.isVariant = true ↔ w.toNat % 32 = 15 := by
  have h := toNat_and_low w 5 (by omega)
  simp only [isVariant, decide_eq_true_eq, ← UInt64.toNat_inj]
  simpa using Eq.congr_left h

theorem isPointer_iff : w.isPointer = true ↔ w.toNat % 8 = 1 := by
  have h := toNat_and_low w 3 (by omega)
  simp only [isPointer, decide_eq_true_eq, ← UInt64.toNat_inj]
  simpa using Eq.congr_left h

theorem toNat_or_mod (x y : Word) (k : Nat) : (x ||| y).toNat % 2 ^ k = x.toNat % 2 ^ k ||| y.toNat % 2 ^ k := by
  rw [UInt64.toNat_or, Nat.or_mod_two_pow]

theorem toNat_shiftLeft_eight (x : Word) : (x <<< 8).toNat = 256 * x.toNat % 2 ^ 64 := by
  rw [UInt64.toNat_shiftLeft, show (8 : UInt64).toNat % 64 = 8 from rfl, Nat.shiftLeft_eq, Nat.mul_comm]

theorem toNat_shiftLeft_five (x : Word) : (x <<< 5).toNat = 32 * x.toNat % 2 ^ 64 := by
  rw [UInt64.toNat_shiftLeft, show (5 : UInt64).toNat % 64 = 5 from rfl, Nat.shiftLeft_eq, Nat.mul_comm]

/-! ### Integers -/

theorem toNat_int (n : Int) : (int n).toNat = 2 * (n % 18446744073709551616).toNat % 18446744073709551616 := by
  rw [int, UInt64.toNat_shiftLeft, show (1 : UInt64).toNat % 64 = 1 from rfl, Nat.shiftLeft_eq, ofInt,
    UInt64.toNat_ofNat']
  omega

theorem int_even (n : Int) : (int n).toNat % 2 = 0 := by
  rw [toNat_int]
  omega

theorem fits_iff : fits n = true ↔ -4611686018427387904 ≤ n ∧ n < 4611686018427387904 := by simp [fits]

theorem int_inj {k : Int} (hn : fits n = true) (hk : fits k = true) : int n = int k ↔ n = k := by
  rw [fits_iff] at hn hk
  rw [← UInt64.toNat_inj, toNat_int, toNat_int]
  omega

theorem toNat_ofInt (n : Int) : (ofInt n).toNat = (n % 18446744073709551616).toNat := by
  rw [ofInt, UInt64.toNat_ofNat']
  omega

theorem toInt_ofInt_of_lt (h : -9223372036854775808 ≤ n) (h' : n < 9223372036854775808) : (ofInt n).toInt = n := by
  rw [toInt, toNat_ofInt]
  split <;> omega

theorem toInt_ofInt (hn : fits n = true) : (ofInt n).toInt = n := by
  rw [fits_iff] at hn
  exact toInt_ofInt_of_lt (by omega) (by omega)

/-! ### Variants without content -/

theorem variant_low (t : Nat) : (variant t).toNat % 32 = 15 := by
  refine (toNat_or_mod (UInt64.ofNat t <<< 5) 15 5).trans ?_
  rw [toNat_shiftLeft_five, show 32 * (UInt64.ofNat t).toNat % 2 ^ 64 % 2 ^ 5 = 0 by omega]
  rfl

theorem toNat_variant (ht : t < 576460752303423488) : (variant t).toNat = 32 * t + 15 := by
  rw [variant, UInt64.toNat_or, toNat_shiftLeft_five, UInt64.toNat_ofNat',
    show 32 * (t % 2 ^ 64) % 2 ^ 64 = 2 ^ 5 * t by omega]
  exact (Nat.two_pow_add_eq_or_of_lt (show 15 < 2 ^ 5 by omega) t).symm

theorem variantTag_variant (ht : t < 576460752303423488) : (variant t).variantTag = t := by
  rw [variantTag, UInt64.toNat_shiftRight, show (5 : UInt64).toNat % 64 = 5 from rfl, Nat.shiftRight_eq_div_pow,
    toNat_variant ht]
  omega

theorem variant_inj {u : Nat} (ht : t < 576460752303423488) (hu : u < 576460752303423488) :
    variant t = variant u ↔ t = u := by
  rw [← UInt64.toNat_inj, toNat_variant ht, toNat_variant hu]
  omega

/-! ### Short strings -/

theorem toNat_marked {k : Nat} (hx : x.toNat % 256 = 0) (hk : k ≤ 7) :
    (x ||| UInt64.ofNat k <<< 5 ||| 13).toNat = x.toNat + (32 * k + 13) := by
  have hlow : (UInt64.ofNat k <<< 5 ||| 13).toNat = 32 * k + 13 := by
    rw [UInt64.toNat_or, toNat_shiftLeft_five, UInt64.toNat_ofNat', show 32 * (k % 2 ^ 64) % 2 ^ 64 = 2 ^ 5 * k by omega]
    exact (Nat.two_pow_add_eq_or_of_lt (show 13 < 2 ^ 5 by omega) k).symm
  obtain ⟨q, hq⟩ := Nat.dvd_of_mod_eq_zero hx
  rw [UInt64.or_assoc, UInt64.toNat_or, hlow, hq]
  exact (Nat.two_pow_add_eq_or_of_lt (show 32 * k + 13 < 2 ^ 8 by omega) q).symm

theorem packed_low (bs : List UInt8) : (packed bs).toNat % 256 = 0 := by
  cases bs with
  | nil => rfl
  | cons b bs =>
    rw [packed, toNat_shiftLeft_eight]
    omega

theorem toNat_shortString (h : bs.length ≤ 7) : (shortString bs).toNat = (packed bs).toNat + (32 * bs.length + 13) :=
  toNat_marked (packed_low bs) h

theorem toNat_shortPattern (h : bs.length ≤ 7) :
    (shortPattern bs).toNat = (packedSigned bs <<< 8).toNat + (32 * bs.length + 13) :=
  toNat_marked (by rw [toNat_shiftLeft_eight]; omega) h

theorem shortString_low (h : bs.length ≤ 7) : (shortString bs).toNat % 32 = 13 := by
  have := packed_low bs
  rw [toNat_shortString h]
  omega

theorem shortPattern_low (h : bs.length ≤ 7) : (shortPattern bs).toNat % 32 = 13 := by
  rw [toNat_shortPattern h, toNat_shiftLeft_eight]
  omega

theorem toNat_or_of_low (hx : x.toNat % 256 = 0) (b : UInt8) :
    (x ||| b.toUInt64).toNat = x.toNat + b.toNat := by
  obtain ⟨q, hq⟩ := Nat.dvd_of_mod_eq_zero hx
  rw [UInt64.toNat_or, UInt8.toNat_toUInt64, hq]
  exact (Nat.two_pow_add_eq_or_of_lt (show b.toNat < 2 ^ 8 from b.toNat_lt) q).symm

theorem packed_cons (b : UInt8) (bs : List UInt8) :
    (packed (b :: bs)).toNat = 256 * ((packed bs).toNat + b.toNat) % 2 ^ 64 := by
  rw [packed, toNat_shiftLeft_eight, UInt64.or_comm, toNat_or_of_low (packed_low bs)]

theorem packedSigned_low (b : UInt8) (bs : List UInt8) : (packedSigned (b :: bs)).toNat % 256 = b.toNat := by
  have h := toNat_or_mod (packedSigned bs <<< 8) (signExtended b) 8
  have hs : (packedSigned bs <<< 8).toNat % 2 ^ 8 = 0 := by
    rw [toNat_shiftLeft_eight]
    omega
  have hb := b.toNat_lt
  rw [hs, Nat.zero_or] at h
  rw [packedSigned]
  refine h.trans ?_
  unfold signExtended
  split
  · rw [UInt8.toNat_toUInt64]
    omega
  · rw [toNat_or_mod, UInt8.toNat_toUInt64, show (0xffffffffffffff00 : UInt64).toNat % 2 ^ 8 = 0 from rfl, Nat.or_zero]
    omega

theorem packedSigned_cons {b : UInt8} (hb : b < 128) (bs : List UInt8) :
    (packedSigned (b :: bs)).toNat = 256 * (packedSigned bs).toNat % 2 ^ 64 + b.toNat := by
  rw [packedSigned, signExtended, if_pos hb, toNat_or_of_low (by rw [toNat_shiftLeft_eight]; omega),
    toNat_shiftLeft_eight]

/-- Up to the bytes that they have, the word that a pattern looks for and the word of a text of bytes below 128 agree
only for the same bytes. -/
theorem eq_of_packed_modEq (hlen : bs.length = as.length) (h : as.length ≤ 7) (has : ∀ a ∈ as, a < 128)
    (heq : 256 * (packedSigned bs).toNat ≡ (packed as).toNat [MOD 256 ^ (as.length + 1)]) : bs = as := by
  induction as generalizing bs with
  | nil => exact length_eq_zero_iff.mp hlen
  | cons a as ih =>
    obtain ⟨b, bs, rfl⟩ := exists_cons_of_length_eq_add_one hlen
    simp only [length_cons, Nat.add_right_cancel_iff] at hlen h
    have hpow : 256 ^ (as.length + 1) ∣ 2 ^ 64 :=
      (pow_dvd_pow 256 (show as.length + 1 ≤ 8 by omega)).trans (by norm_num)
    have hstep : (packedSigned (b :: bs)).toNat ≡ (packed as).toNat + a.toNat [MOD 256 ^ (as.length + 1)] := by
      have hmod : 256 * ((packed as).toNat + a.toNat) % 2 ^ 64 ≡ 256 * ((packed as).toNat + a.toNat)
          [MOD 256 ^ (as.length + 1 + 1)] :=
        (Nat.mod_modEq _ _).of_dvd ((pow_dvd_pow 256 (show as.length + 1 + 1 ≤ 8 by omega)).trans (by norm_num))
      rw [packed_cons, length_cons] at heq
      have := heq.trans hmod
      rw [Nat.pow_succ' (n := as.length + 1)] at this
      exact Nat.ModEq.mul_left_cancel' (by norm_num) this
    have hab : b = a := by
      have hlow := hstep.of_dvd (show 256 ∣ 256 ^ (as.length + 1) from dvd_pow_self _ (by omega))
      have hp := packed_low as
      have ha := a.toNat_lt
      rw [Nat.ModEq, packedSigned_low] at hlow
      rw [← UInt8.toNat_inj]
      omega
    subst hab
    rw [packedSigned_cons (has b ((.head _) ..))] at hstep
    have := ((Nat.mod_modEq (256 * (packedSigned bs).toNat) (2 ^ 64)).of_dvd hpow).symm.trans
      (Nat.ModEq.add_right_cancel' _ hstep)
    rw [ih hlen (by omega) (fun a ha => has a (.tail _ ha)) this]

theorem packedSigned_shiftLeft (h : bs.length ≤ 7) (hbs : ∀ b ∈ bs, b < 128) :
    256 * (packedSigned bs).toNat % 2 ^ 64 = (packed bs).toNat := by
  induction bs with
  | nil => rfl
  | cons b bs ih =>
    rw [length_cons] at h
    rw [packedSigned_cons (hbs b ((.head _) ..)), packed_cons,
      ih (by omega) fun c hc => hbs c (.tail _ hc)]

/-- A pattern finds the short string of its bytes among those of bytes below 128, and no other. -/
theorem shortString_eq_shortPattern_iff (ha : as.length ≤ 7) (hb : bs.length ≤ 7)
    (has : ∀ a ∈ as, a < 128) : shortString as = shortPattern bs ↔ as = bs := by
  have hp := packed_low as
  have hs := toNat_shiftLeft_eight (packedSigned bs)
  rw [← UInt64.toNat_inj, toNat_shortString ha, toNat_shortPattern hb]
  constructor
  · intro h
    have hlen : bs.length = as.length := by omega
    refine (eq_of_packed_modEq hlen ha has ?_).symm
    have heq : 256 * (packedSigned bs).toNat % 2 ^ 64 = (packed as).toNat := by omega
    have hpow : 256 ^ (as.length + 1) ∣ 2 ^ 64 :=
      (pow_dvd_pow 256 (show as.length + 1 ≤ 8 by omega)).trans (by norm_num)
    exact heq ▸ ((Nat.mod_modEq _ _).of_dvd hpow).symm
  · rintro rfl
    rw [hs, packedSigned_shiftLeft ha has]

/-! ### Reading short strings -/

theorem packed_lt (h : bs.length ≤ 7) : (packed bs).toNat < 256 ^ (bs.length + 1) := by
  induction bs with
  | nil => simp [packed]
  | cons b bs ih =>
    rw [length_cons] at h
    have hb := b.toNat_lt
    have hlt := ih (by omega)
    obtain ⟨q, hq⟩ := Nat.dvd_of_mod_eq_zero (packed_low bs)
    rw [hq, Nat.pow_succ'] at hlt
    rw [packed_cons, length_cons, Nat.pow_succ', Nat.pow_succ', hq]
    exact (Nat.mod_le _ _).trans_lt (by omega)

theorem packed_byte (h : bs.length ≤ 7) (i : Nat) (hi : i < bs.length) :
    (packed bs).toNat / 256 ^ (i + 1) % 256 = (bs.get ⟨i, hi⟩).toNat := by
  induction bs generalizing i with
  | nil => cases hi
  | cons b bs ih =>
    rw [length_cons] at h hi
    have hb := b.toNat_lt
    have hlow := packed_low bs
    have hlt : (packed bs).toNat < 256 ^ 7 :=
      (packed_lt (by omega)).trans_le (Nat.pow_le_pow_right (by omega) (by omega))
    have hcons : (packed (b :: bs)).toNat = 256 * ((packed bs).toNat + b.toNat) := by
      rw [packed_cons, Nat.mod_eq_of_lt (by omega)]
    rw [hcons, Nat.pow_succ', ← Nat.div_div_eq_div_mul, Nat.mul_div_cancel_left _ (by omega)]
    cases i with
    | zero =>
      simp only [Nat.pow_zero, Nat.div_one, get_eq_getElem, getElem_cons_zero]
      omega
    | succ i =>
      obtain ⟨q, hq⟩ := Nat.dvd_of_mod_eq_zero hlow
      have hdiv : ((packed bs).toNat + b.toNat) / 256 = (packed bs).toNat / 256 := by omega
      rw [Nat.pow_succ', ← Nat.div_div_eq_div_mul, hdiv, Nat.div_div_eq_div_mul, ← Nat.pow_succ',
        ih (by omega) i (by omega)]
      rfl

theorem shortByte_shortString (h : bs.length ≤ 7) (i : Nat) (hi : i < bs.length) :
    (shortString bs).shortByte i = bs.get ⟨i, hi⟩ := by
  rw [← UInt8.toNat_inj, ← packed_byte h i hi, shortByte, UInt64.toNat_toUInt8, UInt64.toNat_shiftRight,
    UInt64.toNat_ofNat', toNat_shortString h, show 8 * (i + 1) % 2 ^ 64 % 64 = 8 * (i + 1) by omega,
    Nat.shiftRight_eq_div_pow, Nat.pow_mul]
  obtain ⟨q, hq⟩ := Nat.dvd_of_mod_eq_zero (packed_low bs)
  have hdiv : ((packed bs).toNat + (32 * bs.length + 13)) / 256 = (packed bs).toNat / 256 := by omega
  rw [show (2 : Nat) ^ 8 = 256 from rfl, Nat.pow_succ', ← Nat.div_div_eq_div_mul, hdiv, Nat.div_div_eq_div_mul]

theorem shortLength_shortString (h : bs.length ≤ 7) : (shortString bs).shortLength = bs.length := by
  have hlow := packed_low bs
  refine (toNat_and_low (shortString bs >>> 5) 3 (by omega)).trans ?_
  rw [UInt64.toNat_shiftRight, show (5 : UInt64).toNat % 64 = 5 from rfl, Nat.shiftRight_eq_div_pow, toNat_shortString h]
  omega

theorem shortBytes_shortString (h : bs.length ≤ 7) : (shortString bs).shortBytes = bs := by
  rw [shortBytes, shortLength_shortString h]
  refine ext_get (by simp) fun i hi hi' => ?_
  simp only [get_eq_getElem, getElem_map, getElem_range]
  exact shortByte_shortString h i hi'

/-! ### Pointers -/

theorem target_lt (w : Word) : w.target < 2305843009213693952 := by
  have := UInt64.toNat_lt w
  rw [target]
  omega

theorem toNat_pointer {n : Nat} (hn : n < 2305843009213693952) : (pointer n).toNat = 8 * n + 1 := by
  rw [pointer, UInt64.toNat_ofNat']
  omega

theorem target_pointer {n : Nat} (hn : n < 2305843009213693952) : (pointer n).target = n := by
  rw [target, toNat_pointer hn]
  omega

theorem isPointer_pointer {n : Nat} (hn : n < 2305843009213693952) : (pointer n).isPointer = true := by
  rw [isPointer_iff, toNat_pointer hn]
  omega

end Scrap.Machine.Word
