/-! # Words

The low bits of a word of 64 bits tell what it is: an even word is an integer of 63 bits, one that ends in 001 points
to an object, and the rest are the empty list, the hole, strings of up to seven bytes and variants without content. -/

namespace Scrap.Machine

abbrev Word := UInt64

namespace Word

def ofInt (n : Int) : Word := UInt64.ofNat (n % 18446744073709551616).toNat

def toInt (w : Word) : Int := if w.toNat < 9223372036854775808 then w.toNat else w.toNat - 18446744073709551616

/-! ### Integers -/

/-- Whether a word can hold an integer: its magnitude takes 62 bits. -/
def fits (n : Int) : Bool := -4611686018427387904 ≤ n && n < 4611686018427387904

/-- The word of an integer, whose high bit is lost if it does not fit. -/
def int (n : Int) : Word := ofInt n <<< 1

def isInt (w : Word) : Bool := w &&& 1 = 0

def intValue (w : Word) : Int := w.toInt / 2

/-! ### Immediate values -/

def emptyList : Word := 5

def hole : Word := 7

def isShortString (w : Word) : Bool := w &&& 31 = 13

def shortLength (w : Word) : Nat := ((w >>> 5) &&& 7).toNat

def shortByte (w : Word) (i : Nat) : UInt8 := (w >>> UInt64.ofNat (8 * (i + 1))).toUInt8

def shortBytes (w : Word) : List UInt8 := (List.range w.shortLength).map w.shortByte

/-- The word whose bytes above the lowest are the given ones, in order. -/
def packed : List UInt8 → Word
  | [] => 0
  | b :: bs => (b.toUInt64 ||| packed bs) <<< 8

def shortString (bytes : List UInt8) : Word := packed bytes ||| (UInt64.ofNat bytes.length <<< 5) ||| 13

def signExtended (b : UInt8) : Word := if b < 128 then b.toUInt64 else b.toUInt64 ||| 0xffffffffffffff00

def packedSigned : List UInt8 → Word
  | [] => 0
  | b :: bs => (packedSigned bs <<< 8) ||| signExtended b

/-- The short string that a pattern looks for. Bytes above 127 count as negative there and spoil the bytes after
them. -/
def shortPattern (bytes : List UInt8) : Word :=
  (packedSigned bytes <<< 8) ||| (UInt64.ofNat bytes.length <<< 5) ||| 13

def variant (tag : Nat) : Word := (UInt64.ofNat tag <<< 5) ||| 15

def isVariant (w : Word) : Bool := w &&& 31 = 15

def variantTag (w : Word) : Nat := (w >>> 5).toNat

/-! ### Pointers -/

def pointer (n : Nat) : Word := UInt64.ofNat (8 * n + 1)

def isPointer (w : Word) : Bool := w &&& 7 = 1

def target (w : Word) : Nat := w.toNat / 8

end Word

end Scrap.Machine
