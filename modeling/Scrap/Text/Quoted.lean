import Scrap.Text.Class

/-! # Quoted text

The *escaped* form stands between double quotes and is made of printable ASCII only. The *literal* form stands between
single quotes, or between double quotes if that saves an escape, and leaves printable characters as they are. -/

namespace Scrap.Text

def hexText (width n : Nat) : String :=
  let ds := Nat.toDigits 16 n
  String.ofList (List.replicate (width - ds.length) '0' ++ ds)

/-! ### The escaped form -/

def letterEscape? (c : Char) : Option Char :=
  match c with
  | '\n' => some 'n'
  | '\r' => some 'r'
  | '\t' => some 't'
  | '\x0c' => some 'f'
  | '\x08' => some 'b'
  | '"' => some '"'
  | '\\' => some '\\'
  | _ => none

def escapedChar (c : Char) : String :=
  let n := c.toNat
  match letterEscape? c with
  | some l => String.ofList ['\\', l]
  | none =>
    if 32 ≤ n && n ≤ 126 then c.toString
    else if n < 0x10000 then "\\u" ++ hexText 4 n
    else
      let m := n - 0x10000
      "\\u" ++ hexText 4 (0xd800 + m / 0x400) ++ "\\u" ++ hexText 4 (0xdc00 + m % 0x400)

def escaped (s : String) : String := "\"" ++ String.join (s.toList.map escapedChar) ++ "\""

/-! ### The literal form -/

/-- The quote of a literal: the single one, unless only that one occurs in the text. -/
def literalQuote (hasSingle hasDouble : Bool) : Char := if hasSingle && !hasDouble then '"' else '\''

def literalChar (quote c : Char) : String :=
  let n := c.toNat
  if c = quote || c = '\\' then String.ofList ['\\', c]
  else match c with
    | '\n' => "\\n"
    | '\r' => "\\r"
    | '\t' => "\\t"
    | _ =>
      if isPrintable c then c.toString
      else if n < 0x100 then "\\x" ++ hexText 2 n
      else if n < 0x10000 then "\\u" ++ hexText 4 n
      else "\\U" ++ hexText 8 n

def literal (s : String) : String :=
  let cs := s.toList
  let q := literalQuote (cs.contains '\'') (cs.contains '"')
  q.toString ++ String.join (cs.map (literalChar q)) ++ q.toString

def literalByte (quote : Char) (b : UInt8) : String :=
  let n := b.toNat
  let c := Char.ofNat n
  if c = quote || c = '\\' then String.ofList ['\\', c]
  else match c with
    | '\n' => "\\n"
    | '\r' => "\\r"
    | '\t' => "\\t"
    | _ => if 32 ≤ n && n ≤ 126 then c.toString else "\\x" ++ hexText 2 n

def bytesLiteral (bs : List UInt8) : String :=
  let q := literalQuote (bs.contains 39) (bs.contains 34)
  "b" ++ q.toString ++ String.join (bs.map (literalByte q)) ++ q.toString

def listLiteral (ss : List String) : String := "[" ++ String.intercalate ", " (ss.map literal) ++ "]"

end Scrap.Text
