/-! # Integers on the wire

Integers are mapped to the naturals so that small magnitudes stay small, and written seven bits to a byte, least
significant first. An integer beyond 64 bits is written as the number of its 64-bit digits and the digits. -/

namespace Scrap.Wire

def zigzag (n : Int) : Nat := if n < 0 then (-2 * n - 1).toNat else (2 * n).toNat

/-- The integer that a natural stands for; odd ones are the negative side. The map extends to all integers. -/
def unzigzag (n : Int) : Int := if n % 2 = 0 then n / 2 else -(n / 2) - 1

def varintWithin : Nat → Nat → List UInt8
  | 0, n => [UInt8.ofNat (n % 128)]
  | fuel + 1, n =>
    if n < 128 then [UInt8.ofNat n] else UInt8.ofNat (n % 128 + 128) :: varintWithin fuel (n / 128)

def varint (n : Nat) : List UInt8 := varintWithin (Nat.log2 n) n

def short (n : Int) : List UInt8 := varint (zigzag n)

/-- The 64-bit digits of a natural, least significant first, at most `fuel` of them. -/
def digitsWithin : Nat → Nat → List Nat
  | 0, _ => []
  | fuel + 1, n => if n = 0 then [] else n % 18446744073709551616 :: digitsWithin fuel (n / 18446744073709551616)

def digits (n : Nat) : List Nat := digitsWithin (Nat.log2 n + 1) n

def littleEndian : Nat → Nat → List UInt8
  | 0, _ => []
  | count + 1, n => UInt8.ofNat (n % 256) :: littleEndian count (n / 256)

def ofLittleEndian : List UInt8 → Nat
  | [] => 0
  | b :: bs => b.toNat + 256 * ofLittleEndian bs

def long (n : Int) : List UInt8 :=
  let ds := digits (zigzag n)
  short ds.length ++ (ds.map (littleEndian 8)).flatten

def isShort (n : Int) : Bool := -9223372036854775808 ≤ n && n < 9223372036854775808

/-- The natural with the given 64-bit digits, least significant first. Digits are combined bit by bit. -/
def ofDigits : List Nat → Nat
  | [] => 0
  | d :: ds => ofDigits ds * 18446744073709551616 ||| d

end Scrap.Wire
