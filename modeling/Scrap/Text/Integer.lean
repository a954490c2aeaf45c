import Scrap.Text.Quoted
import Scrap.Number.Decimal

/-! # Decimal text of integers

An integer of more than 4300 digits is neither read nor written. Reading takes the digits of any decimal script, single
underscores between them and white space around. Too many digits at the front are refused whatever comes after them. -/

namespace Scrap.Text

def maxDigits : Nat := 4300

inductive IntegerError where
  | notAnInteger (text : String)
  | tooManyDigits (count : Nat)
deriving DecidableEq, Repr

def reportedLength : Nat := 200

def tooManyDigitsReport (count : Nat) : String :=
  "Exceeds the limit (" ++ toString maxDigits ++ " digits) for integer string conversion: value has " ++
    toString count ++ " digits; use sys.set_int_max_str_digits() to increase the limit"

def IntegerError.message : IntegerError → String
  | .notAnInteger s =>
    "invalid literal for int() with base 10: " ++ String.ofList ((literal s).toList.take reportedLength)
  | .tooManyDigits n => tooManyDigitsReport n

def intText? (n : Int) : Option String :=
  if Nat.pow 10 maxDigits ≤ n.natAbs then none else some (Decimal.intText n)

/-- White space that may stand around an integer: all of it but the separators among the control characters. -/
def isMargin (c : Char) : Bool := isBlank c && !(28 ≤ c.toNat && c.toNat ≤ 31)

def isNumeral (c : Char) : Bool := (decimalValue? c).isSome || c = '_'

/-- Whether every underscore stands alone between two digits, and there is a digit. -/
def isGrouped : List Char → Bool
  | [] => false
  | ['_'] => false
  | [_] => true
  | '_' :: _ => false
  | _ :: '_' :: cs => isGrouped cs
  | _ :: cs => isGrouped cs

def readInt (s : String) : Except IntegerError Int :=
  let (negative, body) := match s.toList.dropWhile isMargin with
    | '-' :: r => (true, r)
    | '+' :: r => (false, r)
    | r => (false, r)
  let numeral := body.takeWhile isNumeral
  let digits := numeral.filterMap decimalValue?
  if !isGrouped numeral then .error (.notAnInteger s)
  else if maxDigits < digits.length then .error (.tooManyDigits digits.length)
  else if !(body.dropWhile isNumeral).all isMargin then .error (.notAnInteger s)
  else .ok (if negative then -(ofDigits digits : Int) else ofDigits digits)

end Scrap.Text
