import Scrap.Text.Quoted

/-! # Text as bytes

Decoding is strict: the first sequence that is no UTF-8 is reported with the bytes it spans. The lenient decoder puts
the replacement character for each. -/

namespace Scrap.Text

def utf8 (s : String) : List UInt8 := s.toList.flatMap String.utf8EncodeChar

inductive Utf8Fault where
  | badStart
  | badContinuation
  | cutShort
deriving DecidableEq, Repr

/-- Bytes that are no UTF-8: the fault, where it starts, how many bytes it spans, and the first of them. -/
structure Utf8Error where
  fault : Utf8Fault
  start : Nat
  span : Nat
  first : UInt8
deriving DecidableEq, Repr

def Utf8Fault.reason : Utf8Fault → String
  | .badStart => "invalid start byte"
  | .badContinuation => "invalid continuation byte"
  | .cutShort => "unexpected end of data"

def Utf8Error.message (e : Utf8Error) : String :=
  let place :=
    if e.span = 1 then "byte 0x" ++ hexText 2 e.first.toNat ++ " in position " ++ toString e.start
    else "bytes in position " ++ toString e.start ++ "-" ++ toString (e.start + e.span - 1)
  "'utf-8' codec can't decode " ++ place ++ ": " ++ e.fault.reason

inductive Utf8Step where
  | char (c : Char) (span : Nat)
  | fault (f : Utf8Fault) (span : Nat)
deriving Repr

def isContinuation (b : UInt8) : Bool := 0x80 ≤ b.toNat && b.toNat < 0xc0

def low6 (b : UInt8) : Nat := b.toNat % 64

/-- Whether `b` may follow the first byte `a` of a sequence of three or four bytes. -/
def secondFits (a b : UInt8) : Bool :=
  isContinuation b &&
    (if a = 0xe0 then 0xa0 ≤ b.toNat else if a = 0xed then b.toNat < 0xa0
     else if a = 0xf0 then 0x90 ≤ b.toNat else if a = 0xf4 then b.toNat < 0x90 else true)

def utf8Step (a : UInt8) (rest : List UInt8) : Utf8Step :=
  let n := a.toNat
  if n < 0x80 then .char (Char.ofNat n) 1
  else if n < 0xc2 || 0xf5 ≤ n then .fault .badStart 1
  else if n < 0xe0 then
    match rest with
    | [] => .fault .cutShort 1
    | b :: _ =>
      if isContinuation b then .char (Char.ofNat (n % 32 * 64 + low6 b)) 2 else .fault .badContinuation 1
  else if n < 0xf0 then
    match rest with
    | [] => .fault .cutShort 1
    | b :: r =>
      if !secondFits a b then .fault .badContinuation 1
      else match r with
        | [] => .fault .cutShort 2
        | c :: _ =>
          if isContinuation c then .char (Char.ofNat ((n % 16 * 64 + low6 b) * 64 + low6 c)) 3
          else .fault .badContinuation 2
  else
    match rest with
    | [] => .fault .cutShort 1
    | b :: r =>
      if !secondFits a b then .fault .badContinuation 1
      else match r with
        | [] => .fault .cutShort 2
        | c :: r =>
          if !isContinuation c then .fault .badContinuation 2
          else match r with
            | [] => .fault .cutShort 3
            | d :: _ =>
              if isContinuation d then
                .char (Char.ofNat (((n % 8 * 64 + low6 b) * 64 + low6 c) * 64 + low6 d)) 4
              else .fault .badContinuation 3

/-- Decodes from position `start`; `skip` bytes of the character just read are still to pass over. -/
def decodeFrom : List UInt8 → Nat → Nat → List Char → Except Utf8Error (List Char)
  | [], _, _, acc => .ok acc.reverse
  | _ :: r, start, skip + 1, acc => decodeFrom r (start + 1) skip acc
  | a :: r, start, 0, acc =>
    match utf8Step a r with
    | .char c span => decodeFrom r (start + 1) (span - 1) (c :: acc)
    | .fault f span => .error ⟨f, start, span, a⟩

def ofUtf8 (bs : List UInt8) : Except Utf8Error String := (decodeFrom bs 0 0 []).map String.ofList

private def decodeLenient : List UInt8 → Nat → List Char → List Char
  | [], _, acc => acc.reverse
  | _ :: r, skip + 1, acc => decodeLenient r skip acc
  | a :: r, 0, acc =>
    match utf8Step a r with
    | .char c span => decodeLenient r (span - 1) (c :: acc)
    | .fault _ span => decodeLenient r (span - 1) (Char.ofNat 0xfffd :: acc)

def ofUtf8Lenient (bs : List UInt8) : String := String.ofList (decodeLenient bs 0 [])

end Scrap.Text
