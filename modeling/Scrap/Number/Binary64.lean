/-! # Floating-point numbers

A number is its 64-bit pattern. Sums, products, quotients and remainders are computed exactly and rounded once, a tie
going to the even significand; only powers are left to the host. -/

namespace Scrap

structure Binary64 where
  bits : UInt64
deriving DecidableEq, Repr, Inhabited

/-- What a pattern stands for. A finite number is `m * 2 ^ e`, with its sign apart so that zero has one. -/
inductive Binary64.View where
  | finite (negative : Bool) (m : Nat) (e : Int)
  | infinite (negative : Bool)
  | nan
deriving DecidableEq, Repr

namespace Binary64

def negative (x : Binary64) : Bool := Nat.pow 2 63 ≤ x.bits.toNat

def view (x : Binary64) : View :=
  let n := x.bits.toNat
  let exponent : Nat := n / Nat.pow 2 52 % Nat.pow 2 11
  let fraction : Nat := n % Nat.pow 2 52
  if exponent = 2047 then
    if fraction = 0 then .infinite x.negative else .nan
  else if exponent = 0 then .finite x.negative fraction (-1074)
  else .finite x.negative (Nat.pow 2 52 + fraction) ((exponent : Int) - 1075)

def ofMagnitude (negative : Bool) (magnitude : Nat) : Binary64 :=
  ⟨UInt64.ofNat ((if negative then Nat.pow 2 63 else 0) + magnitude)⟩

def zero (negative : Bool) : Binary64 := ofMagnitude negative 0

def infinity (negative : Bool) : Binary64 := ofMagnitude negative (2047 * Nat.pow 2 52)

def nan : Binary64 := ⟨0x7ff8000000000000⟩

def invalid : Binary64 := ⟨0xfff8000000000000⟩

def one : Binary64 := ⟨0x3ff0000000000000⟩

def half : Binary64 := ⟨0x3fe0000000000000⟩

def isNaN (x : Binary64) : Bool := x.view = .nan

def isInfinite (x : Binary64) : Bool :=
  match x.view with
  | .infinite _ => true
  | _ => false

def isZero (x : Binary64) : Bool :=
  match x.view with
  | .finite _ m _ => m = 0
  | _ => false

def neg (x : Binary64) : Binary64 := ⟨x.bits ^^^ 0x8000000000000000⟩

def abs (x : Binary64) : Binary64 := ⟨x.bits &&& 0x7fffffffffffffff⟩

def copySign (x y : Binary64) : Binary64 := if y.negative then x.abs.neg else x.abs

/-! ### Rounding -/

/-- The quotient `num / den` rounded to the nearest integer, a tie going to the even one. -/
def roundDiv (num den : Nat) : Nat :=
  let q := num / den
  let r := num % den
  if 2 * r < den then q
  else if den < 2 * r then q + 1
  else if q % 2 = 0 then q else q + 1

def scaled (num den : Nat) (e : Int) : Nat × Nat :=
  if 0 ≤ e then (num, den * Nat.pow 2 e.toNat) else (num * Nat.pow 2 (-e).toNat, den)

/-- The exponent of the last significand bit of a number near `num / den`: fifty-three bits, or fewer when the
number is too small for that. -/
def lastPlace (num den : Nat) : Int :=
  let guess : Int := (Nat.log2 num : Int) - Nat.log2 den - 53
  let (n, d) := scaled num den guess
  max (-1074) (if Nat.pow 2 53 ≤ n / d then guess + 1 else guess)

/-- The number nearest to `num / den`; too large a fraction gives an infinity. -/
def ofRatio (negative : Bool) (num den : Nat) : Binary64 :=
  if num = 0 then zero negative
  else
    let e := lastPlace num den
    let (n, d) := scaled num den e
    let m := roundDiv n d
    let (m, e) := if Nat.pow 2 53 ≤ m then (m / 2, e + 1) else (m, e)
    if m < Nat.pow 2 52 then ofMagnitude negative m
    else if 971 < e then infinity negative
    else ofMagnitude negative ((e + 1074).toNat * Nat.pow 2 52 + m)

def ofDyadic (negative : Bool) (m : Nat) (e : Int) : Binary64 :=
  if 0 ≤ e then ofRatio negative (m * Nat.pow 2 e.toNat) 1 else ofRatio negative m (Nat.pow 2 (-e).toNat)

/-- The number nearest to an integer, unless it lies beyond every finite number. -/
def ofInt? (n : Int) : Option Binary64 :=
  let x := ofRatio (n < 0) n.natAbs 1
  if x.isInfinite then none else some x

/-! ### Arithmetic -/

/-- An operand that is no number is the result, made quiet; the left one wins. -/
def quieted (x y : Binary64) : Binary64 :=
  if x.isNaN then ⟨x.bits ||| 0x0008000000000000⟩
  else if y.isNaN then ⟨y.bits ||| 0x0008000000000000⟩
  else invalid

/-- A signed dyadic as an integer over `2 ^ e`, for an `e` not above its own exponent. -/
private def alignedTo (e : Int) (negative : Bool) (m : Nat) (exponent : Int) : Int :=
  let n : Int := m * Nat.pow 2 (exponent - e).toNat
  if negative then -n else n

def add (x y : Binary64) : Binary64 :=
  match x.view, y.view with
  | .finite nx mx ex, .finite ny my ey =>
    let e := min ex ey
    let s := alignedTo e nx mx ex + alignedTo e ny my ey
    if s = 0 then zero (nx && ny) else ofDyadic (s < 0) s.natAbs e
  | .infinite nx, .finite _ _ _ => infinity nx
  | .finite _ _ _, .infinite ny => infinity ny
  | .infinite nx, .infinite ny => if nx = ny then infinity nx else invalid
  | _, _ => quieted x y

def sub (x y : Binary64) : Binary64 := if y.isNaN then quieted x y else add x y.neg

def mul (x y : Binary64) : Binary64 :=
  match x.view, y.view with
  | .finite nx mx ex, .finite ny my ey => ofDyadic (nx != ny) (mx * my) (ex + ey)
  | .infinite nx, .finite ny m _ => if m = 0 then invalid else infinity (nx != ny)
  | .finite nx m _, .infinite ny => if m = 0 then invalid else infinity (nx != ny)
  | .infinite nx, .infinite ny => infinity (nx != ny)
  | _, _ => quieted x y

def div (x y : Binary64) : Binary64 :=
  match x.view, y.view with
  | .finite nx mx ex, .finite ny my ey =>
    if my = 0 then if mx = 0 then invalid else infinity (nx != ny)
    else
      let (n, d) := scaled mx my (ey - ex)
      ofRatio (nx != ny) n d
  | .infinite nx, .finite ny _ _ => infinity (nx != ny)
  | .finite nx _ _, .infinite ny => zero (nx != ny)
  | .infinite _, .infinite _ => invalid
  | _, _ => quieted x y

/-- The remainder of a division whose quotient is cut toward zero; it has the sign of `x`. -/
def rem (x y : Binary64) : Binary64 :=
  match x.view, y.view with
  | .finite nx mx ex, .finite _ my ey =>
    if my = 0 then invalid
    else
      let e := min ex ey
      let r := mx * Nat.pow 2 (ex - e).toNat % (my * Nat.pow 2 (ey - e).toNat)
      if r = 0 then zero nx else ofDyadic nx r e
  | .finite _ _ _, .infinite _ => x
  | .infinite _, .finite _ _ _ => invalid
  | .infinite _, .infinite _ => invalid
  | _, _ => quieted x y

def floorInt? (x : Binary64) : Option Int :=
  match x.view with
  | .finite n m e =>
    let v : Int := if n then -m else m
    some (if 0 ≤ e then v * Nat.pow 2 e.toNat else v.fdiv (Nat.pow 2 (-e).toNat))
  | _ => none

/-- The largest integral number not above `x`; a zero result keeps the sign of `x`. -/
def floor (x : Binary64) : Binary64 :=
  match x.floorInt? with
  | some n => if n = 0 then zero x.negative else ofRatio (n < 0) n.natAbs 1
  | none => x

def isIntegral (x : Binary64) : Bool :=
  match x.view with
  | .finite _ m e => 0 ≤ e || m % Nat.pow 2 (-e).toNat = 0
  | _ => false

def isOddInteger (x : Binary64) : Bool :=
  x.isIntegral && ((x.floorInt?.getD 0) % 2 != 0)

/-! ### Order -/

def compare? (x y : Binary64) : Option Ordering :=
  match x.view, y.view with
  | .finite nx mx ex, .finite ny my ey =>
    let e := min ex ey
    some (Ord.compare (alignedTo e nx mx ex) (alignedTo e ny my ey))
  | .infinite nx, .infinite ny => some (if nx = ny then .eq else if nx then .lt else .gt)
  | .infinite nx, .finite _ _ _ => some (if nx then .lt else .gt)
  | .finite _ _ _, .infinite ny => some (if ny then .gt else .lt)
  | _, _ => none

def compareInt? (n : Int) (y : Binary64) : Option Ordering :=
  match y.view with
  | .finite ny my ey =>
    let e := min 0 ey
    some (Ord.compare (alignedTo e (n < 0) n.natAbs 0) (alignedTo e ny my ey))
  | .infinite ny => some (if ny then .gt else .lt)
  | .nan => none

/-- Numeric equality: both zeros are equal, and what is no number equals nothing. -/
def eq (x y : Binary64) : Bool := x.compare? y = some .eq

def lt (x y : Binary64) : Bool := x.compare? y = some .lt

/-! ### The length of a pair -/

/-- The largest integer whose square is at most `n`. A digit in base four of `n` gives a bit of the root. -/
def rootFloor (n : Nat) : Nat :=
  if n = 0 then 0
  else
    let r := 2 * rootFloor (n / 4)
    if (r + 1) * (r + 1) ≤ n then r + 1 else r

/-- The square root of the sum of the squares, rounded once: the root is taken to sixty-four more bits, and one more
bit tells that something is left. -/
def hypot (x y : Binary64) : Binary64 :=
  match x.view, y.view with
  | .infinite _, _ => infinity false
  | _, .infinite _ => infinity false
  | .nan, _ => quieted x y
  | _, .nan => quieted x y
  | .finite _ m e, .finite _ n f =>
    let g := min e f
    let a := m * Nat.pow 2 (e - g).toNat
    let b := n * Nat.pow 2 (f - g).toNat
    let square := (a * a + b * b) * Nat.pow 4 64
    let root := rootFloor square
    ofDyadic false (2 * root + if root * root = square then 0 else 1) (g - 65)

/-! ### Functions of the host -/

def toFloat (x : Binary64) : Float := Float.ofBits x.bits

def ofFloat (x : Float) : Binary64 := ⟨x.toBits⟩

end Binary64

end Scrap
