import Scrap.Proofs.Wire.Bytes
import Mathlib.Logic.Function.Basic

/-! # Integers there and back

Integers and naturals are numbered one to one, and an integer is read back from its bytes, whatever follows them. -/

namespace Scrap.Wire

theorem zigzag_unzigzag (k : Nat) : zigzag (unzigzag k) = k := by
  unfold unzigzag zigzag
  split <;> split <;> omega

/-- The high bit of a byte says whether another one follows. -/
def Chained (bs : List UInt8) : Prop :=
  ∃ front last, bs = front ++ [last] ∧ (∀ b ∈ front, 128 ≤ b.toNat) ∧ last.toNat < 128

theorem chained_single {n : Nat} (h : n < 128) : Chained [UInt8.ofNat n] :=
  ⟨[], UInt8.ofNat n, rfl, ⟨fun _ hb => (List.not_mem_nil hb).elim, by rwa [Text.toNat_ofNat_of_lt (by omega)]⟩⟩

theorem Chained.cons {bs : List UInt8} {n : Nat} (hbs : Chained bs) (hn : 128 ≤ n) (hlt : n < 256) :
    Chained (UInt8.ofNat n :: bs) := by
  obtain ⟨front, last, rfl, hfront, hlast⟩ := hbs
  refine ⟨UInt8.ofNat n :: front, last, rfl, List.forall_mem_cons.mpr ⟨?_, hfront⟩, hlast⟩
  rwa [Text.toNat_ofNat_of_lt hlt]

theorem chained_varintWithin (fuel n : Nat) : Chained (varintWithin fuel n) := by
  induction fuel generalizing n with
  | zero => exact chained_single (Nat.mod_lt n (by decide))
  | succ fuel ih =>
    rw [varintWithin]
    split
    · exact chained_single ‹_›
    · exact (ih (n / 128)).cons (by omega) (by omega)

open Decoder in
/-- Integers are numbered by the naturals and back. From before the bytes of an integer the decoder reads that integer
and stands before what follows, and the bytes of its short form end where a high bit is not set. -/
theorem integers_read_back :
    Function.Bijective zigzag ∧ (∀ n, unzigzag (zigzag n) = n) ∧ (∀ k : Nat, zigzag (unzigzag k) = k) ∧
    ∀ n : Int, Chained (short n) ∧ ∀ (d : Decoder) (rest : List UInt8),
      (d.Ahead (short n ++ rest) → ∃ d', outcome readShort d = (.ok n, d') ∧ d'.Ahead rest ∧ d'.data = d.data) ∧
      (d.Ahead (long n ++ rest) → ∃ d', outcome readLong d = (.ok n, d') ∧ d'.Ahead rest ∧ d'.data = d.data) := by
  refine ⟨Function.bijective_iff_has_inverse.mpr ⟨fun k => unzigzag k, unzigzag_zigzag, zigzag_unzigzag⟩, unzigzag_zigzag,
    zigzag_unzigzag, fun n => ⟨chained_varintWithin _ _, fun d rest => ⟨?_, ?_⟩⟩⟩
  · exact fun h => ⟨_, reads_readShort n d rest h, h.past, rfl⟩
  · exact fun h => ⟨_, reads_readLong n d rest h, h.past, rfl⟩

open Decoder in
/-- The short form of -2 before another byte. -/
theorem negative_read_back : ∃ d' : Decoder,
    outcome readShort { data := #[3, 7] } = (.ok (-2), d') ∧ d'.Ahead [7] ∧ d'.data = #[3, 7] :=
  ((integers_read_back.2.2.2 (-2)).2 { data := #[3, 7] } [7]).1 ⟨0, rfl, rfl, rfl⟩

end Scrap.Wire
