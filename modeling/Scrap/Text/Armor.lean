/-! # Bytes as ASCII text

Bytes are written in base 85, 64, 32 or 16. Base 64 passes over characters outside its alphabet and stops at the
padding; the others refuse them. -/

namespace Scrap.Text

inductive ArmorError where
  | notAscii
  | lengthOneOver (count : Nat)
  | badPadding
  | badDigit32
  | badDigit16
  | oddLength
  | badDigit85 (position : Nat)
  | overflow85 (position : Nat)
deriving DecidableEq, Repr

def ArmorError.message : ArmorError → String
  | .notAscii => "string argument should contain only ASCII characters"
  | .lengthOneOver n =>
    "Invalid base64-encoded string: number of data characters (" ++ toString n ++
      ") cannot be 1 more than a multiple of 4"
  | .badPadding => "Incorrect padding"
  | .badDigit32 => "Non-base32 digit found"
  | .badDigit16 => "Non-base16 digit found"
  | .oddLength => "Odd-length string"
  | .badDigit85 n => "bad base85 character at position " ++ toString n
  | .overflow85 n => "base85 overflow in hunk starting at byte " ++ toString n

def alphabet64 : List Char := "ABCDEFGHIJKLMNOPQRSTUVWXYZabcdefghijklmnopqrstuvwxyz0123456789+/".toList

def alphabet32 : List Char := "ABCDEFGHIJKLMNOPQRSTUVWXYZ234567".toList

def alphabet16 : List Char := "0123456789ABCDEF".toList

def alphabet85 : List Char :=
  "0123456789ABCDEFGHIJKLMNOPQRSTUVWXYZabcdefghijklmnopqrstuvwxyz!#$%&()*+-;<=>?@^_\x60\x7b|\x7d~".toList

def digitOf? (alphabet : List Char) (c : Char) : Option Nat := alphabet.idxOf? c

def bigEndian (count n : Nat) : List UInt8 :=
  (List.range count).map fun i => UInt8.ofNat (n / Nat.pow 256 (count - 1 - i))

/-! ### Base 64 -/

def armor64 : List UInt8 → List Char
  | [] => []
  | [a] =>
    let n := a.toNat * 65536
    [alphabet64.getD (n / 262144) '=', alphabet64.getD (n / 4096 % 64) '=', '=', '=']
  | [a, b] =>
    let n := a.toNat * 65536 + b.toNat * 256
    [alphabet64.getD (n / 262144) '=', alphabet64.getD (n / 4096 % 64) '=', alphabet64.getD (n / 64 % 64) '=', '=']
  | a :: b :: c :: r =>
    let n := a.toNat * 65536 + b.toNat * 256 + c.toNat
    alphabet64.getD (n / 262144) '=' :: alphabet64.getD (n / 4096 % 64) '=' :: alphabet64.getD (n / 64 % 64) '=' ::
      alphabet64.getD (n % 64) '=' :: armor64 r

/-- Reads base 64: `place` digits of the current group are read, `left` holds the bits not yet written, and `pads`
padding characters have come since the last digit. -/
private def unarmor64From : List Char → Nat → Nat → Nat → List UInt8 → Except ArmorError (List UInt8)
  | [], place, _, _, out =>
    if place = 0 then .ok out.reverse
    else if place = 1 then .error (.lengthOneOver (out.length / 3 * 4 + 1))
    else .error .badPadding
  | '=' :: r, place, left, pads, out =>
    if 2 ≤ place then
      if 4 ≤ place + (pads + 1) then .ok out.reverse else unarmor64From r place left (pads + 1) out
    else unarmor64From r place left pads out
  | c :: r, place, left, pads, out =>
    match digitOf? alphabet64 c with
    | none => unarmor64From r place left pads out
    | some v =>
      match place with
      | 0 => unarmor64From r 1 v 0 out
      | 1 => unarmor64From r 2 (v % 16) 0 (UInt8.ofNat (left * 4 + v / 16) :: out)
      | 2 => unarmor64From r 3 (v % 4) 0 (UInt8.ofNat (left * 16 + v / 4) :: out)
      | _ => unarmor64From r 0 0 0 (UInt8.ofNat (left * 64 + v) :: out)

def unarmor64 (cs : List Char) : Except ArmorError (List UInt8) := unarmor64From cs 0 0 0 []

/-! ### Base 32 and base 16 -/

private def chunks (n : Nat) (cs : List Char) : List (List Char) :=
  (List.range ((cs.length + n - 1) / n)).map fun i => (cs.drop (n * i)).take n

private def value32? (cs : List Char) : Option Nat :=
  cs.foldlM (fun n c => (digitOf? alphabet32 c).map (n * 32 + ·)) 0

def unarmor32 (cs : List Char) : Except ArmorError (List UInt8) :=
  let digits := (cs.reverse.dropWhile (· = '=')).reverse
  let pads := cs.length - digits.length
  if cs.length % 8 != 0 then .error .badPadding
  else match (chunks 8 digits).mapM value32? with
    | none => .error .badDigit32
    | some ns =>
      if !([0, 1, 3, 4, 6].contains pads) then .error .badPadding
      else
        let full := ns.map (bigEndian 5)
        if pads = 0 then .ok full.flatten
        else match ns.getLast? with
          | none => .ok []
          | some last =>
            let kept := (43 - 5 * pads) / 8
            .ok (full.dropLast.flatten ++ (bigEndian 5 (last * Nat.pow 32 pads)).take kept)

def unarmor16 (cs : List Char) : Except ArmorError (List UInt8) :=
  match cs.mapM (digitOf? alphabet16) with
  | none => .error .badDigit16
  | some ds =>
    let rec pairs : List Nat → Except ArmorError (List UInt8)
      | [] => .ok []
      | [_] => .error .oddLength
      | a :: b :: r => (pairs r).map (UInt8.ofNat (16 * a + b) :: ·)
    pairs ds

/-! ### Base 85 -/

private def value85 (start : Nat) (cs : List Char) : Except ArmorError Nat :=
  match cs.findIdx? fun c => (digitOf? alphabet85 c).isNone with
  | some i => .error (.badDigit85 (start + i))
  | none =>
    let n := cs.foldl (fun n c => n * 85 + (digitOf? alphabet85 c).getD 0) 0
    if n < Nat.pow 2 32 then .ok n else .error (.overflow85 start)

def unarmor85 (cs : List Char) : Except ArmorError (List UInt8) := do
  let pads := (5 - cs.length % 5) % 5
  let groups := chunks 5 (cs ++ List.replicate pads '~')
  let ns ← (groups.zipIdx.map fun (g, i) => (g, 5 * i)).mapM fun (g, start) => value85 start g
  let bytes := (ns.map (bigEndian 4)).flatten
  return bytes.take (bytes.length - pads)

/-- The bytes that `s` is the armor of, in one of the four bases; `none` if there is no such base. -/
def unarmor? (base : Int) (s : String) : Option (Except ArmorError (List UInt8)) :=
  let cs := s.toList
  let guarded (read : List Char → Except ArmorError (List UInt8)) : Option (Except ArmorError (List UInt8)) :=
    some (if cs.all fun c => c.toNat < 128 then read cs else .error .notAscii)
  if base = 85 then guarded unarmor85
  else if base = 64 then guarded unarmor64
  else if base = 32 then guarded unarmor32
  else if base = 16 then guarded unarmor16
  else none

def armored (bs : List UInt8) : String := String.ofList (armor64 bs)

end Scrap.Text
