import Scrap.Text.Utf8

/-! # Reading back the bytes of a text

The bytes of a character are read as that character, whatever follows them. -/

namespace Scrap.Text

open List

variable {m n : Nat}

theorem toNat_ofNat_of_lt (h : n < 256) : (UInt8.ofNat n).toNat = n := by
  rw [UInt8.toNat_ofNat']
  omega

theorem isContinuation_ofNat (h : n < 64) : isContinuation (UInt8.ofNat (n + 128)) = true := by
  unfold isContinuation
  rw [toNat_ofNat_of_lt (by omega)]
  simp
  omega

theorem low6_ofNat (h : n < 64) : low6 (UInt8.ofNat (n + 128)) = n := by
  unfold low6
  rw [toNat_ofNat_of_lt (by omega)]
  omega

/-- The second byte of a long sequence fits its first if the sequence is not longer than needed, no surrogate and in
range. -/
theorem secondFits_ofNat (hn : n < 256) (hm : m < 64) (h1 : n = 0xe0 → 32 ≤ m) (h2 : n = 0xed → m < 32)
    (h3 : n = 0xf0 → 16 ≤ m) (h4 : n = 0xf4 → m < 16) : secondFits (UInt8.ofNat n) (UInt8.ofNat (m + 128)) = true := by
  have byte : ∀ k : Nat, k < 256 → (UInt8.ofNat n = UInt8.ofNat k ↔ n = k) := fun k hk => by
    rw [← UInt8.toNat_inj, toNat_ofNat_of_lt hn, toNat_ofNat_of_lt hk]
  have e1 := byte 0xe0 (by omega)
  have e2 := byte 0xed (by omega)
  have e3 := byte 0xf0 (by omega)
  have e4 := byte 0xf4 (by omega)
  simp only [UInt8.reduceOfNat] at e1 e2 e3 e4
  unfold secondFits
  rw [isContinuation_ofNat hm, toNat_ofNat_of_lt (by omega)]
  simp only [e1, e2, e3, e4, Bool.true_and]
  split
  · simp; omega
  · split
    · simp; omega
    · split
      · simp; omega
      · split
        · simp; omega
        · rfl

theorem utf8Step_encodeChar (c : Char) (rest : List UInt8) :
    ∃ a more, String.utf8EncodeChar c = a :: more ∧ utf8Step a (more ++ rest) = .char c (more.length + 1) := by
  have hc : Char.ofNat c.val.toNat = c := Char.ofNat_toNat c
  have hv : c.val.toNat < 0xd800 ∨ 0xdfff < c.val.toNat ∧ c.val.toNat < 0x110000 := c.valid
  unfold String.utf8EncodeChar
  generalize c.val.toNat = v at hc hv
  by_cases h1 : v ≤ 127
  · refine ⟨UInt8.ofNat v, [], by simp [h1], ?_⟩
    simp only [utf8Step, toNat_ofNat_of_lt (show v < 256 by omega), if_pos (show v < 128 by omega), hc]
    rfl
  by_cases h2 : v ≤ 2047
  · refine ⟨UInt8.ofNat (v / 64 % 32 + 192), [UInt8.ofNat (v % 64 + 128)], by simp [h1, h2], ?_⟩
    have ha : v / 64 % 32 + 192 < 256 := by omega
    simp only [utf8Step, toNat_ofNat_of_lt ha, cons_append, nil_append, isContinuation_ofNat
      (show v % 64 < 64 by omega), low6_ofNat (show v % 64 < 64 by omega)]
    rw [if_neg (by omega), if_neg (by simp; omega), if_pos (by omega)]
    have : (v / 64 % 32 + 192) % 32 * 64 + v % 64 = v := by omega
    simp only [this, hc, if_true]
    rfl
  by_cases h3 : v ≤ 65535
  · refine ⟨UInt8.ofNat (v / 4096 % 16 + 224), [UInt8.ofNat (v / 64 % 64 + 128), UInt8.ofNat (v % 64 + 128)],
      by simp [h1, h2, h3], ?_⟩
    have ha : v / 4096 % 16 + 224 < 256 := by omega
    have hf := secondFits_ofNat ha (show v / 64 % 64 < 64 by omega) (by omega) (by omega) (by omega) (by omega)
    simp only [utf8Step, toNat_ofNat_of_lt ha, cons_append, nil_append, hf, isContinuation_ofNat
      (show v % 64 < 64 by omega), low6_ofNat (show v % 64 < 64 by omega),
      low6_ofNat (show v / 64 % 64 < 64 by omega)]
    rw [if_neg (by omega), if_neg (by simp; omega), if_neg (by omega), if_pos (by omega)]
    have : ((v / 4096 % 16 + 224) % 16 * 64 + v / 64 % 64) * 64 + v % 64 = v := by omega
    simp only [this, hc, if_true, Bool.not_true, Bool.false_eq_true, if_false]
    rfl
  · refine ⟨UInt8.ofNat (v / 262144 % 8 + 240), [UInt8.ofNat (v / 4096 % 64 + 128), UInt8.ofNat (v / 64 % 64 + 128),
      UInt8.ofNat (v % 64 + 128)], by simp [h1, h2, h3], ?_⟩
    have ha : v / 262144 % 8 + 240 < 256 := by omega
    have hf := secondFits_ofNat ha (show v / 4096 % 64 < 64 by omega) (by omega) (by omega) (by omega) (by omega)
    simp only [utf8Step, toNat_ofNat_of_lt ha, cons_append, nil_append, hf, isContinuation_ofNat
      (show v % 64 < 64 by omega), isContinuation_ofNat (show v / 64 % 64 < 64 by omega),
      low6_ofNat (show v % 64 < 64 by omega), low6_ofNat (show v / 64 % 64 < 64 by omega),
      low6_ofNat (show v / 4096 % 64 < 64 by omega)]
    rw [if_neg (by omega), if_neg (by simp; omega), if_neg (by omega), if_neg (by omega)]
    have : (((v / 262144 % 8 + 240) % 8 * 64 + v / 4096 % 64) * 64 + v / 64 % 64) * 64 + v % 64 = v := by omega
    simp only [this, hc, if_true, Bool.not_true, Bool.false_eq_true, if_false]
    rfl

theorem decodeFrom_skip (more rest : List UInt8) (start : Nat) (acc : List Char) :
    decodeFrom (more ++ rest) start more.length acc = decodeFrom rest (start + more.length) 0 acc := by
  induction more generalizing start with
  | nil => rfl
  | cons b more ih =>
    show decodeFrom (more ++ rest) (start + 1) more.length acc = _
    rw [ih]
    congr 1
    simp
    omega

theorem decodeFrom_flatMap (cs : List Char) (start : Nat) (acc : List Char) :
    decodeFrom (cs.flatMap String.utf8EncodeChar) start 0 acc = .ok (acc.reverse ++ cs) := by
  induction cs generalizing start acc with
  | nil => simp [decodeFrom]
  | cons c cs ih =>
    obtain ⟨a, more, hc, hstep⟩ := utf8Step_encodeChar c (cs.flatMap String.utf8EncodeChar)
    rw [flatMap_cons, hc, cons_append, decodeFrom, hstep]
    simp only [Nat.add_sub_cancel]
    rw [decodeFrom_skip, ih]
    simp

theorem ofUtf8_utf8 (s : String) : ofUtf8 (utf8 s) = .ok s := by
  unfold ofUtf8 utf8
  rw [decodeFrom_flatMap]
  simp [Except.map]

end Scrap.Text
