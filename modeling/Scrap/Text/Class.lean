import Scrap.Text.ClassTable

/-!
# Character classes

ASCII characters are decided directly and all others by the tables.
-/

namespace Scrap.Text

def isBlank (c : Char) : Bool :=
  let n := c.toNat
  if n < 128 then (9 ≤ n && n ≤ 13) || (28 ≤ n && n ≤ 32) else inRuns blankRuns n

/-- A digit of any script, the ones that stand in no decimal numeral included. -/
def isDigit (c : Char) : Bool :=
  let n := c.toNat
  if n < 128 then 48 ≤ n && n ≤ 57 else inRuns digitRuns n

def isAlphanumeric (c : Char) : Bool :=
  let n := c.toNat
  if n < 128 then (48 ≤ n && n ≤ 57) || (65 ≤ n && n ≤ 90) || (97 ≤ n && n ≤ 122)
  else inRuns alphanumericRuns n

def isPrintable (c : Char) : Bool :=
  let n := c.toNat
  if n < 128 then 32 ≤ n && n ≤ 126 else inRuns printableRuns n

def decimalValue? (c : Char) : Option Nat :=
  let n := c.toNat
  if n < 128 then if 48 ≤ n && n ≤ 57 then some (n - 48) else none
  else (decimalZeros.find? fun z => z ≤ n && n ≤ z + 9).map (n - ·)

def decimalValues? (cs : List Char) : Option (List Nat) := cs.mapM decimalValue?

def ofDigits (ds : List Nat) : Nat := ds.foldl (fun n d => 10 * n + d) 0

end Scrap.Text
