import Scrap.Number.Complex
import Scrap.Number.Decimal

/-! # Arithmetic on integers and floating-point numbers

Integers are exact. An operation with a floating-point operand is done on floating-point numbers, division of integers
included; floor division rounds toward minus infinity and the remainder has the sign of the divisor. -/

namespace Scrap

inductive Number where
  | int (n : Int)
  | real (x : Binary64)
  | complex (z : Complex)
deriving DecidableEq, Repr

inductive Arithmetic where
  | add | sub | mul | div | floorDiv | pow | mod
deriving DecidableEq, Repr

inductive Comparison where
  | less | greater | lessEqual | greaterEqual
deriving DecidableEq, Repr

inductive NumberError where
  | integerDivisionByZero (op : Arithmetic)
  | realDivisionByZero (op : Arithmetic)
  | complexDivisionByZero
  | zeroToNegativePower
  | zeroToComplexPower
  | integerTooLarge
  | quotientTooLarge
  | powerOutOfRange
  | complexPowerOutOfRange
  | noSuchOperation (op : Arithmetic) (left right : String)
  | notOrdered (op : Comparison) (left right : String)
deriving DecidableEq, Repr

def Arithmetic.symbol : Arithmetic → String
  | .add => "+"
  | .sub => "-"
  | .mul => "*"
  | .div => "/"
  | .floorDiv => "//"
  | .pow => "**"
  | .mod => "%"

def Comparison.symbol : Comparison → String
  | .less => "<"
  | .greater => ">"
  | .lessEqual => "<="
  | .greaterEqual => ">="

def NumberError.message : NumberError → String
  | .integerDivisionByZero .mod => "integer modulo by zero"
  | .integerDivisionByZero .floorDiv => "integer division or modulo by zero"
  | .integerDivisionByZero _ => "division by zero"
  | .realDivisionByZero .mod => "float modulo"
  | .realDivisionByZero .floorDiv => "float floor division by zero"
  | .realDivisionByZero _ => "float division by zero"
  | .complexDivisionByZero => "complex division by zero"
  | .zeroToNegativePower => "0.0 cannot be raised to a negative power"
  | .zeroToComplexPower => "0.0 to a negative or complex power"
  | .integerTooLarge => "int too large to convert to float"
  | .quotientTooLarge => "integer division result too large for a float"
  | .powerOutOfRange => "(34, 'Numerical result out of range')"
  | .complexPowerOutOfRange => "complex exponentiation"
  | .noSuchOperation op l r =>
    "unsupported operand type(s) for " ++ op.symbol ++ (if op = .pow then " or pow(): '" else ": '") ++ l ++ "' and '"
      ++ r ++ "'"
  | .notOrdered op l r => "'" ++ op.symbol ++ "' not supported between instances of '" ++ l ++ "' and '" ++ r ++ "'"

def NumberError.between (left right : String) : NumberError → NumberError
  | .noSuchOperation op _ _ => .noSuchOperation op left right
  | .notOrdered op _ _ => .notOrdered op left right
  | e => e

namespace Number

def kind : Number → String
  | .int _ => "int"
  | .real _ => "float"
  | .complex _ => "complex"

def toReal : Number → Except NumberError Binary64
  | .int n => match Binary64.ofInt? n with
    | some x => .ok x
    | none => .error .integerTooLarge
  | .real x => .ok x
  | .complex z => .ok z.re

def toComplex : Number → Except NumberError Complex
  | .complex z => .ok z
  | n => n.toReal.map Complex.ofReal

/-! ### Integers -/

def intDiv (a b : Int) : Except NumberError Binary64 :=
  if b = 0 then .error (.integerDivisionByZero .div)
  else
    let x := Binary64.ofRatio ((a < 0) != (b < 0)) a.natAbs b.natAbs
    if x.isInfinite then .error .quotientTooLarge else .ok x

/-! ### Floating-point numbers -/

def realMod (x y : Binary64) : Except NumberError Binary64 :=
  if y.isZero then .error (.realDivisionByZero .mod)
  else
    let r := x.rem y
    if r.isZero then .ok (r.copySign y)
    else if r.isNaN then .ok r
    else if y.negative != r.negative then .ok (r.add y)
    else .ok r

/-- The quotient rounded toward minus infinity, taken from the exact remainder. -/
def realFloorDiv (x y : Binary64) : Except NumberError Binary64 :=
  if y.isZero then .error (.realDivisionByZero .floorDiv)
  else
    let r := x.rem y
    let q := (x.sub r).div y
    let q := if !r.isZero && y.negative != r.negative then q.sub .one else q
    if q.isZero then .ok (Binary64.copySign (.zero false) (x.div y))
    else
      let f := q.floor
      .ok (if Binary64.half.lt (q.sub f) then f.add .one else f)

/-- Powers of complex numbers: an integral exponent of at most a hundred is a repeated product. -/
def complexPow (z w : Complex) : Except NumberError Complex :=
  let small := w.im.isZero && w.re.isIntegral && !(Binary64.ofRatio false 100 1).lt w.re.abs
  let r : Except NumberError Complex :=
    if small then
      let n := (w.re.floorInt?).getD 0
      if 0 < n then .ok (z.npow n.toNat)
      else match Complex.one.div? (z.npow n.natAbs) with
        | some q => .ok q
        | none => .error .zeroToComplexPower
    else if w.isZero then .ok .one
    else if z.isZero then
      if !w.im.isZero || w.re.lt (.zero false) then .error .zeroToComplexPower else .ok ⟨.zero false, .zero false⟩
    else match z.polarPow? w with
      | some q => .ok q
      | none => .error .zeroToComplexPower
  match r with
  | .ok q => if q.isInfinite then .error .complexPowerOutOfRange else .ok q
  | .error e => .error e

/-- Powers: anything to the zeroth is one, and one to any power is one; a negative base takes its sign from the
parity of an integral exponent, and goes to the complex numbers with any other. -/
def realPow (x y : Binary64) : Except NumberError Number :=
  if y.isZero then .ok (.real .one)
  else if x.isNaN then .ok (.real x)
  else if y.isNaN then .ok (.real (if x.eq .one then .one else y))
  else if y.isInfinite then
    let a := x.abs
    .ok (.real (if a.eq .one then .one
      else if !y.negative = Binary64.one.lt a then y.abs else .zero false))
  else if x.isInfinite then
    .ok (.real (if !y.negative then (if y.isOddInteger then x else x.abs)
      else if y.isOddInteger then Binary64.copySign (.zero false) x else .zero false))
  else if x.isZero then
    if y.negative then .error .zeroToNegativePower
    else .ok (.real (if y.isOddInteger then x else .zero false))
  else if x.negative && !y.isIntegral then
    (complexPow (.ofReal x) (.ofReal y)).map .complex
  else
    let flips := x.negative && y.isOddInteger
    let a := x.abs
    let p := if a.eq .one then Binary64.one else .ofFloat (Float.pow a.toFloat y.toFloat)
    if p.isInfinite then .error .powerOutOfRange
    else .ok (.real (if flips then p.neg else p))

/-! ### Complex numbers -/

def intPow (a : Int) (n : Nat) : Int :=
  let magnitude : Int := Nat.pow a.natAbs n
  if a < 0 && n % 2 = 1 then -magnitude else magnitude

def complexApply (op : Arithmetic) (a b : Number) : Except NumberError Number := do
  let unsupported : Except NumberError Number := .error (.noSuchOperation op a.kind b.kind)
  match op with
  | .floorDiv => unsupported
  | .mod => unsupported
  | .add => return .complex ((← a.toComplex).add (← b.toComplex))
  | .sub => return .complex ((← a.toComplex).sub (← b.toComplex))
  | .mul => return .complex ((← a.toComplex).mul (← b.toComplex))
  | .div =>
    match (← a.toComplex).div? (← b.toComplex) with
    | some q => return .complex q
    | none => .error .complexDivisionByZero
  | .pow => return .complex (← complexPow (← a.toComplex) (← b.toComplex))

def realApply (op : Arithmetic) (x y : Binary64) : Except NumberError Number :=
  match op with
  | .add => .ok (.real (x.add y))
  | .sub => .ok (.real (x.sub y))
  | .mul => .ok (.real (x.mul y))
  | .div => if y.isZero then .error (.realDivisionByZero .div) else .ok (.real (x.div y))
  | .floorDiv => (realFloorDiv x y).map .real
  | .mod => (realMod x y).map .real
  | .pow => realPow x y

def intApply (op : Arithmetic) (a b : Int) : Except NumberError Number :=
  match op with
  | .add => .ok (.int (a + b))
  | .sub => .ok (.int (a - b))
  | .mul => .ok (.int (a * b))
  | .div => (intDiv a b).map .real
  | .floorDiv => if b = 0 then .error (.integerDivisionByZero .floorDiv) else .ok (.int (a.fdiv b))
  | .mod => if b = 0 then .error (.integerDivisionByZero .mod) else .ok (.int (a.fmod b))
  | .pow =>
    if 0 ≤ b then .ok (.int (intPow a b.toNat))
    else do realPow (← toReal (.int a)) (← toReal (.int b))

def apply (op : Arithmetic) (a b : Number) : Except NumberError Number :=
  match a, b with
  | .int m, .int n => intApply op m n
  | .complex _, _ => complexApply op a b
  | _, .complex _ => complexApply op a b
  | _, _ => do realApply op (← a.toReal) (← b.toReal)

def compare? : Number → Number → Option Ordering
  | .int a, .int b => some (Ord.compare a b)
  | .int a, .real y => Binary64.compareInt? a y
  | .real x, .int b => (Binary64.compareInt? b x).map Ordering.swap
  | .real x, .real y => x.compare? y
  | _, _ => none

def test (op : Comparison) (a b : Number) : Except NumberError Bool :=
  let answer : Bool := match a.compare? b with
    | none => false
    | some o => match op with
      | .less => o = .lt
      | .greater => o = .gt
      | .lessEqual => o != .gt
      | .greaterEqual => o != .lt
  match a, b with
  | .complex _, _ => .error (.notOrdered op a.kind b.kind)
  | _, .complex _ => .error (.notOrdered op a.kind b.kind)
  | _, _ => .ok answer

end Number

end Scrap
