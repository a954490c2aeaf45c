import Scrap.Number.Binary64

/-! # Complex numbers

A negative number raised to a power that is no integer is complex. Powers go through the polar form, except small
integral ones, which are repeated products. -/

namespace Scrap

structure Complex where
  re : Binary64
  im : Binary64
deriving DecidableEq, Repr, Inhabited

namespace Complex

def ofReal (x : Binary64) : Complex := ⟨x, .zero false⟩

def one : Complex := ofReal .one

def isZero (z : Complex) : Bool := z.re.isZero && z.im.isZero

def isInfinite (z : Complex) : Bool := z.re.isInfinite || z.im.isInfinite

def eq (z w : Complex) : Bool := z.re.eq w.re && z.im.eq w.im

def add (z w : Complex) : Complex := ⟨z.re.add w.re, z.im.add w.im⟩

def sub (z w : Complex) : Complex := ⟨z.re.sub w.re, z.im.sub w.im⟩

def mul (z w : Complex) : Complex :=
  ⟨(z.re.mul w.re).sub (z.im.mul w.im), (z.re.mul w.im).add (z.im.mul w.re)⟩

/-- The quotient, scaled by the larger part of the divisor; there is none by zero. -/
def div? (z w : Complex) : Option Complex :=
  if w.isZero then none
  else if !w.re.abs.lt w.im.abs then
    let ratio := w.im.div w.re
    let denom := w.re.add (w.im.mul ratio)
    some ⟨(z.re.add (z.im.mul ratio)).div denom, (z.im.sub (z.re.mul ratio)).div denom⟩
  else
    let ratio := w.re.div w.im
    let denom := (w.re.mul ratio).add w.im
    some ⟨((z.re.mul ratio).add z.im).div denom, ((z.im.mul ratio).sub z.re).div denom⟩

def npow (z : Complex) (n : Nat) : Complex :=
  let rec go : Nat → Nat → Complex → Complex → Complex
    | 0, _, r, _ => r
    | fuel + 1, n, r, p =>
      if n = 0 then r else go fuel (n / 2) (if n % 2 = 1 then r.mul p else r) (p.mul p)
  go (n + 1) n one z

/-- The power through the polar form of the base, which is not zero. There is none if the angle of the power is
infinite. -/
def polarPow? (z w : Complex) : Option Complex :=
  let size := (z.re.hypot z.im).toFloat
  let angle := Float.atan2 z.im.toFloat z.re.toFloat
  let length := Float.pow size w.re.toFloat
  let phase := angle * w.re.toFloat
  let (length, phase) :=
    if w.im.isZero then (length, phase)
    else (length / Float.exp (angle * w.im.toFloat), phase + w.im.toFloat * Float.log size)
  if phase.isInf then none
  else some ⟨.ofFloat (length * Float.cos phase), .ofFloat (length * Float.sin phase)⟩

end Complex

end Scrap
