import Scrap.Number.Binary64

/-! # Decimal text of floating-point numbers

A number is written with the fewest decimal digits that read back as the same number, and of several such decimals the
nearest. -/

namespace Scrap

/-- A positive decimal `0.d1d2… * 10 ^ point`: its digits as one number, how many they are, and where the point
stands. -/
structure Decimal where
  digits : Nat
  count : Nat
  point : Int
deriving DecidableEq, Repr

structure DecimalFormat where
  /-- The positions of the point, from and up to, that are written without an exponent. -/
  positional : Int × Int
  keepsFraction : Bool

namespace Decimal

def ratio (d : Decimal) : Nat × Nat :=
  let e := d.point - d.count
  if 0 ≤ e then (d.digits * Nat.pow 10 e.toNat, 1) else (d.digits, Nat.pow 10 (-e).toNat)

/-- The position of the point of `num / den`: the least `k` with `num / den < 10 ^ k`. -/
def pointOf (num den : Nat) : Int :=
  let bits : Int := (Nat.log2 num : Int) - Nat.log2 den
  let guess : Int := (bits * 30103).fdiv 100000 - 1
  let below (k : Int) : Bool :=
    if 0 ≤ k then num < den * Nat.pow 10 k.toNat else num * Nat.pow 10 (-k).toNat < den
  let rec up : Nat → Int → Int
    | 0, k => k
    | fuel + 1, k => if below k then k else up fuel (k + 1)
  up 5 guess

/-- The two decimals of `count` digits next to `num / den`, the lower one first. -/
def neighbours (num den : Nat) (point : Int) (count : Nat) : Decimal × Decimal :=
  let e := point - count
  let (n, d) := if 0 ≤ e then (num, den * Nat.pow 10 e.toNat) else (num * Nat.pow 10 (-e).toNat, den)
  let low := n / d
  (⟨low, count, point⟩, ⟨low + 1, count, point⟩)

def toBinary64 (negative : Bool) (d : Decimal) : Binary64 :=
  Binary64.ofRatio negative d.ratio.1 d.ratio.2

/-- Twice the distance of `num / den` from the middle of its two neighbours decides which of them is nearer. -/
private def nearer (num den : Nat) (low high : Decimal) : Decimal :=
  let (ln, ld) := low.ratio
  let (hn, hd) := high.ratio
  -- compare num / den - low with high - num / den
  let left := 2 * num * ld * hd
  let right := (ln * hd + hn * ld) * den
  if left < right then low
  else if right < left then high
  else if low.digits % 2 = 0 then low else high

/-- The fewest digits, from `count` on, that read back as `x`, whose magnitude is `num / den`. -/
private def shortestFrom (x : Binary64) (num den : Nat) (point : Int) : Nat → Nat → Decimal
  | 0, count => (neighbours num den point count).1
  | fuel + 1, count =>
    let (low, high) := neighbours num den point count
    let readsBack (d : Decimal) : Bool := d.toBinary64 false = x.abs
    match readsBack low, readsBack high with
    | true, true => nearer num den low high
    | true, false => low
    | false, true => high
    | false, false => shortestFrom x num den point fuel (count + 1)

private def normalized (d : Decimal) : Decimal :=
  let d := if Nat.pow 10 d.count ≤ d.digits then { d with digits := d.digits / 10, point := d.point + 1 } else d
  let rec trim : Nat → Decimal → Decimal
    | 0, d => d
    | fuel + 1, d =>
      if 1 < d.count && d.digits % 10 = 0 then trim fuel { d with digits := d.digits / 10, count := d.count - 1 }
      else d
  trim d.count d

/-- The shortest decimal that reads back as the finite number `x`; zero is the digit zero. -/
def shortest (x : Binary64) : Decimal :=
  match x.view with
  | .finite _ m e =>
    if m = 0 then ⟨0, 1, 1⟩
    else
      let (num, den) := if 0 ≤ e then (m * Nat.pow 2 e.toNat, 1) else (m, Nat.pow 2 (-e).toNat)
      normalized (shortestFrom x num den (pointOf num den) 17 1)
  | _ => ⟨0, 1, 1⟩

/-! ### Writing -/

def natText (n : Nat) : String := String.ofList (Nat.toDigits 10 n)

def intText (n : Int) : String := if n < 0 then "-" ++ natText n.natAbs else natText n.natAbs

private def zeros (n : Nat) : String := String.ofList (List.replicate n '0')

def text (f : DecimalFormat) (d : Decimal) : String :=
  let ds := Nat.toDigits 10 d.digits
  let n := ds.length
  if f.positional.1 ≤ d.point && d.point ≤ f.positional.2 then
    if d.point ≤ 0 then "0." ++ zeros (-d.point).toNat ++ String.ofList ds
    else
      let p := d.point.toNat
      if n ≤ p then String.ofList ds ++ zeros (p - n) ++ (if f.keepsFraction then ".0" else "")
      else String.ofList (ds.take p) ++ "." ++ String.ofList (ds.drop p)
  else
    let e := d.point - 1
    let mantissa := String.ofList (ds.take 1) ++ (if n ≤ 1 then "" else "." ++ String.ofList (ds.drop 1))
    let size := natText e.natAbs
    mantissa ++ (if e < 0 then "e-" else "e+") ++ (if size.length < 2 then "0" ++ size else size)

end Decimal

namespace Binary64

def textWith (f : DecimalFormat) (x : Binary64) : String :=
  match x.view with
  | .nan => "nan"
  | .infinite negative => if negative then "-inf" else "inf"
  | .finite negative _ _ => (if negative then "-" else "") ++ (Decimal.shortest x).text f

/-- Numbers from a ten-thousandth up to sixteen digits before the point are written without an exponent, and an
integral number keeps its fraction. -/
def plain : DecimalFormat := ⟨(-3, 16), true⟩

/-- The parts of a complex number are written without the fraction of integral numbers. -/
def bare : DecimalFormat := ⟨(-3, 16), false⟩

def text (x : Binary64) : String := x.textWith plain

/-- The text of a complex number: its imaginary part alone if the real part is the positive zero, otherwise both
parts in parentheses. -/
def complexText (re im : Binary64) : String :=
  if re = zero false then im.textWith bare ++ "j"
  else
    let sign := if im.negative && !im.isNaN then "" else "+"
    "(" ++ re.textWith bare ++ sign ++ im.textWith bare ++ "j)"

def ofDecimalChars? (cs : List Char) : Option Binary64 :=
  let (negative, cs) := match cs with
    | '-' :: r => (true, r)
    | '+' :: r => (false, r)
    | r => (false, r)
  let value (ds : List Char) : Nat := ds.foldl (fun n c => 10 * n + (c.toNat - '0'.toNat)) 0
  let whole := cs.takeWhile Char.isDigit
  let rest := cs.dropWhile Char.isDigit
  let (fraction, rest) := match rest with
    | '.' :: r => (r.takeWhile Char.isDigit, r.dropWhile Char.isDigit)
    | r => ([], r)
  let ofExponent (e : Int) : Option Binary64 :=
    let digits := value (whole ++ fraction)
    let e := e - fraction.length
    some (if 0 ≤ e then ofRatio negative (digits * Nat.pow 10 e.toNat) 1
      else ofRatio negative digits (Nat.pow 10 (-e).toNat))
  if whole.isEmpty && fraction.isEmpty then none
  else match rest with
    | [] => ofExponent 0
    | c :: r =>
      if c = 'e' || c = 'E' then
        let (below, r) := match r with
          | '-' :: r => (true, r)
          | '+' :: r => (false, r)
          | r => (false, r)
        if r.isEmpty || !r.all Char.isDigit then none
        else
          let n : Int := value r
          ofExponent (if below then -n else n)
      else none

/-- Reads the text of a number, the words for the infinities and for what is no number included. -/
def ofText? (s : String) : Option Binary64 :=
  if s = "nan" then some nan
  else if s = "inf" then some (infinity false)
  else if s = "-inf" then some (infinity true)
  else ofDecimalChars? s.toList

end Binary64

end Scrap
