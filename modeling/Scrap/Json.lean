import Scrap.Dict
import Scrap.Text.Integer

/-! # JSON data

Numbers with a fraction or an exponent are floating-point numbers. Of several values for one key the last one counts.
An error is reported with its place. -/

namespace Scrap

/-- JSON data; of floating-point numbers only their presence is kept. -/
inductive Json where
  | null
  | bool (b : Bool)
  | int (n : Int)
  | float
  | string (s : String)
  | array (items : List Json)
  | object (fields : List (String × Json))
deriving Repr, Inhabited

inductive JsonFault where
  | value | property | colon | comma | extraData | unterminatedString | controlCharacter | escape | unicodeEscape
  | byteOrderMark
deriving DecidableEq, Repr

/-- A fault with the number of characters before it, or an integer with too many digits. -/
inductive JsonError where
  | fault (f : JsonFault) (position : Nat) (line column : Nat)
  | tooManyDigits (count : Nat)
  | outOfFuel
deriving DecidableEq, Repr

def JsonFault.text : JsonFault → String
  | .value => "Expecting value"
  | .property => "Expecting property name enclosed in double quotes"
  | .colon => "Expecting ':' delimiter"
  | .comma => "Expecting ',' delimiter"
  | .extraData => "Extra data"
  | .unterminatedString => "Unterminated string starting at"
  | .controlCharacter => "Invalid control character at"
  | .escape => "Invalid \\escape"
  | .unicodeEscape => "Invalid \\uXXXX escape"
  | .byteOrderMark => "Unexpected UTF-8 BOM (decode using utf-8-sig)"

def JsonError.message : JsonError → String
  | .fault f p l c =>
    f.text ++ ": line " ++ toString l ++ " column " ++ toString c ++ " (char " ++ toString p ++ ")"
  | .tooManyDigits n => Text.tooManyDigitsReport n
  | .outOfFuel => "out of fuel"

namespace Json

/-- A fault before it is located: how many characters are left where it was found. -/
inductive Problem where
  | fault (f : JsonFault) (left : Nat)
  | tooManyDigits (count : Nat)
  | outOfFuel

def isBlank (c : Char) : Bool := c = ' ' || c = '\t' || c = '\n' || c = '\r'

def skipBlanks (cs : List Char) : List Char := cs.dropWhile isBlank

def hexValue? (c : Char) : Option Nat :=
  if '0' ≤ c && c ≤ '9' then some (c.toNat - '0'.toNat)
  else if 'a' ≤ c && c ≤ 'f' then some (c.toNat - 'a'.toNat + 10)
  else if 'A' ≤ c && c ≤ 'F' then some (c.toNat - 'A'.toNat + 10)
  else none

def hex4? : List Char → Option (Nat × List Char)
  | a :: b :: c :: d :: r => do
    let a ← hexValue? a
    let b ← hexValue? b
    let c ← hexValue? c
    let d ← hexValue? d
    return (((a * 16 + b) * 16 + c) * 16 + d, r)
  | _ => none

def letter? : Char → Option Char
  | '"' => some '"'
  | '\\' => some '\\'
  | '/' => some '/'
  | 'b' => some '\x08'
  | 'f' => some '\x0c'
  | 'n' => some '\n'
  | 'r' => some '\r'
  | 't' => some '\t'
  | _ => none

def unitChar (n : Nat) : Char := if 0xd800 ≤ n && n < 0xe000 then Char.ofNat 0xfffd else Char.ofNat n

/-- The rest of a string, whose opening quote had `start` characters from it to the end of the text. -/
def stringTail (start : Nat) : Nat → List Char → List Char → Except Problem (String × List Char)
  | 0, _, _ => .error .outOfFuel
  | _ + 1, [], _ => .error (.fault .unterminatedString start)
  | fuel + 1, c :: r, acc =>
    if c = '"' then .ok (String.ofList acc.reverse, r)
    else if c.toNat < 32 then .error (.fault .controlCharacter (r.length + 1))
    else if c != '\\' then stringTail start fuel r (c :: acc)
    else match r with
      | [] => .error (.fault .unterminatedString start)
      | 'u' :: r =>
        -- four digits have to be followed by something
        match if 4 < r.length then hex4? r else none with
        | none => .error (.fault .unicodeEscape (r.length + 1))
        | some (n, r) =>
          if 0xd800 ≤ n && n < 0xdc00 then
            match r with
            | '\\' :: 'u' :: q =>
              match if 4 < q.length then hex4? q else none with
              | some (m, q) =>
                if 0xdc00 ≤ m && m < 0xe000 then
                  stringTail start fuel q (Char.ofNat (0x10000 + (n - 0xd800) * 0x400 + (m - 0xdc00)) :: acc)
                else stringTail start fuel r (unitChar n :: acc)
              | none => stringTail start fuel r (unitChar n :: acc)
            | _ => stringTail start fuel r (unitChar n :: acc)
          else stringTail start fuel r (unitChar n :: acc)
      | e :: r =>
        match letter? e with
        | some l => stringTail start fuel r (l :: acc)
        | none => .error (.fault .escape (r.length + 2))

def dropWord? (word : String) (cs : List Char) : Option (List Char) :=
  if word.toList.isPrefixOf cs then some (cs.drop word.length) else none

def number? (cs : List Char) : Option (Except Problem Json × List Char) :=
  let (negative, body) := match cs with
    | '-' :: r => (true, r)
    | r => (false, r)
  let digits := match body with
    | '0' :: _ => ['0']
    | r => r.takeWhile Char.isDigit
  if digits.isEmpty then none
  else
    let rest := body.drop digits.length
    let (hasFraction, rest) := match rest with
      | '.' :: r =>
        let f := r.takeWhile Char.isDigit
        if f.isEmpty then (false, rest) else (true, r.drop f.length)
      | _ => (false, rest)
    let exponent (r : List Char) : Bool × List Char :=
      let body := match r with
        | '+' :: q => q
        | '-' :: q => q
        | q => q
      let e := body.takeWhile Char.isDigit
      if e.isEmpty then (false, rest) else (true, body.drop e.length)
    let (hasExponent, rest) := match rest with
      | 'e' :: r => exponent r
      | 'E' :: r => exponent r
      | _ => (false, rest)
    if hasFraction || hasExponent then some (.ok .float, rest)
    else if Text.maxDigits < digits.length then some (.error (.tooManyDigits digits.length), rest)
    else
      let n := digits.foldl (fun n c => 10 * n + (c.toNat - '0'.toNat)) 0
      some (.ok (.int (if negative then -(n : Int) else n)), rest)

mutual

def value : Nat → List Char → Except Problem (Json × List Char)
  | 0, _ => .error .outOfFuel
  | fuel + 1, cs =>
    let simple (word : String) (v : Json) : Option (Json × List Char) := (dropWord? word cs).map fun r => (v, r)
    match cs with
    | [] => .error (.fault .value 0)
    | '"' :: r => (stringTail cs.length (r.length + 1) r []).map fun (s, q) => (.string s, q)
    | '\x7b' :: r =>
      match skipBlanks r with
      | '\x7d' :: q => .ok (.object [], q)
      | q => (members fuel q).map fun (fs, q) => (.object (Dict.ofEntries fs), q)
    | '[' :: r =>
      match skipBlanks r with
      | ']' :: q => .ok (.array [], q)
      | q => (elements fuel q).map fun (xs, q) => (.array xs, q)
    | _ =>
      match simple "null" .null <|> simple "true" (.bool true) <|> simple "false" (.bool false) <|>
          simple "NaN" .float <|> simple "Infinity" .float <|> simple "-Infinity" .float with
      | some (v, q) => .ok (v, q)
      | none =>
        match number? cs with
        | some (.ok v, q) => .ok (v, q)
        | some (.error p, _) => .error p
        | none => .error (.fault .value cs.length)

def members : Nat → List Char → Except Problem (List (String × Json) × List Char)
  | 0, _ => .error .outOfFuel
  | fuel + 1, cs =>
    match cs with
    | '"' :: r => do
      let (k, q) ← stringTail cs.length (r.length + 1) r []
      match skipBlanks q with
      | ':' :: q =>
        let (v, q) ← value fuel (skipBlanks q)
        match skipBlanks q with
        | '\x7d' :: q => return ([(k, v)], q)
        | ',' :: q =>
          let (fs, q) ← members fuel (skipBlanks q)
          return ((k, v) :: fs, q)
        | q => .error (.fault .comma q.length)
      | q => .error (.fault .colon q.length)
    | _ => .error (.fault .property cs.length)

def elements : Nat → List Char → Except Problem (List Json × List Char)
  | 0, _ => .error .outOfFuel
  | fuel + 1, cs => do
    let (v, q) ← value fuel cs
    match skipBlanks q with
    | ']' :: q => return ([v], q)
    | ',' :: q =>
      let (vs, q) ← elements fuel (skipBlanks q)
      return (v :: vs, q)
    | q => .error (.fault .comma q.length)

end

def located (cs : List Char) : Problem → JsonError
  | .fault f left =>
    let before := cs.take (cs.length - left)
    let column := (before.reverse.takeWhile (· ≠ '\n')).length + 1
    .fault f before.length (before.count '\n' + 1) column
  | .tooManyDigits n => .tooManyDigits n
  | .outOfFuel => .outOfFuel

def parse (s : String) : Except JsonError Json :=
  let cs := s.toList
  let whole : Except Problem Json :=
    match cs with
    | c :: r =>
      if c.toNat = 0xfeff then .error (.fault .byteOrderMark (r.length + 1))
      else do
        let (v, q) ← value (2 * cs.length + 2) (skipBlanks cs)
        match skipBlanks q with
        | [] => return v
        | q => .error (.fault .extraData q.length)
    | [] => .error (.fault .value 0)
  match whole with
  | .ok v => .ok v
  | .error p => .error (located cs p)

end Json

end Scrap
