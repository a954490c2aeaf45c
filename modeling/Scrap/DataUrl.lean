import Scrap.Text.Armor
import Scrap.Text.Utf8

/-! # Data addresses

A data address carries its content: after the first comma, percent-encoded, and in base 64 if the part before the comma
says so. Other addresses are out of reach here. -/

namespace Scrap

inductive FetchError where
  | unknownAddress (address : String)
  | unknownScheme (scheme : String)
  | noHost
  | noFtpHost
  | notLocal
  | noFile (path : String)
  | noComma
  | badArmor (cause : Text.ArmorError)
  | badText (cause : Text.Utf8Error)
  | unreachable
deriving DecidableEq, Repr

def FetchError.message : FetchError → String
  | .unknownAddress a => "unknown url type: " ++ Text.literal a
  | .unknownScheme s => "<urlopen error unknown url type: " ++ s ++ ">"
  | .noHost => "<urlopen error no host given>"
  | .noFtpHost => "<urlopen error ftp error: no host given>"
  | .notLocal => "<urlopen error file:// scheme is supported only on localhost>"
  | .noFile p => "<urlopen error [Errno 2] No such file or directory: " ++ Text.literal p ++ ">"
  | .noComma => "not enough values to unpack (expected 2, got 1)"
  | .badArmor e => e.message
  | .badText e => e.message
  | .unreachable => "<urlopen error unreachable>"

namespace DataUrl

private def trimmed (cs : List Char) : List Char :=
  ((cs.dropWhile Text.isBlank).reverse.dropWhile Text.isBlank).reverse

/-- The address without the brackets and the label that may enclose it. -/
def unwrapped (cs : List Char) : List Char :=
  let cs := trimmed cs
  let cs := if cs.head? = some '<' && cs.getLast? = some '>' then trimmed (cs.drop 1).dropLast else cs
  if "URL:".toList.isPrefixOf cs then trimmed (cs.drop 4) else cs

private def hexByte? (a b : UInt8) : Option UInt8 := do
  let digit (n : UInt8) : Option Nat :=
    let c := Char.ofNat n.toNat
    if '0' ≤ c && c ≤ '9' then some (c.toNat - 48)
    else if 'a' ≤ c && c ≤ 'f' then some (c.toNat - 87)
    else if 'A' ≤ c && c ≤ 'F' then some (c.toNat - 55)
    else none
  return UInt8.ofNat (16 * (← digit a) + (← digit b))

def percentDecoded : List UInt8 → List UInt8
  | a :: b :: c :: r =>
    match if a = 37 then hexByte? b c else none with
    | some x => x :: percentDecoded r
    | none => a :: percentDecoded (b :: c :: r)
  | bs => bs

/-- The host and the path in what follows the scheme of an address. The path after a host starts with a slash. -/
def hostAndPath (rest : List Char) : List Char × List Char :=
  match rest with
  | '/' :: '/' :: r =>
    let host := r.takeWhile fun c => c ≠ '/' && c ≠ '#' && c ≠ '?'
    match r.drop host.length with
    | [] => (host, [])
    | '/' :: path => (host, '/' :: path)
    | path => (host, '/' :: path)
  | _ => ([], rest)

def refusal (scheme : String) (rest : List Char) : FetchError :=
  let (host, path) := hostAndPath rest
  match scheme with
  | "http" | "https" => if host.isEmpty then .noHost else .unreachable
  | "ftp" => if host.isEmpty then .noFtpHost else .unreachable
  | "file" =>
    let away := !host.isEmpty && String.ofList host ≠ "localhost"
    if away && "//".toList.isPrefixOf path && path[2]? ≠ some '/' then .notLocal
    else match Text.ofUtf8 (percentDecoded (Text.utf8 (String.ofList path))) with
      | .ok file => .noFile file
      | .error _ => .unreachable
  | _ => .unknownScheme scheme

def content (address : String) : Except FetchError String := do
  let cs := unwrapped address.toList
  -- a fragment belongs to the content but not to the search for the scheme; an empty one is dropped
  let head := match (cs.reverse.dropWhile (· ≠ '#')).reverse with
    | [] => cs
    | path => path.dropLast
  let cs := if cs.getLast? = some '#' then cs.dropLast else cs
  let scheme := head.takeWhile fun c => c ≠ '/' && c ≠ ':'
  if scheme.isEmpty || (head.drop scheme.length).head? ≠ some ':' then throw (.unknownAddress (String.ofList cs))
  let name := (String.ofList scheme).toLower
  if name ≠ "data" then throw (refusal name (head.drop (scheme.length + 1)))
  let body := cs.drop (scheme.length + 1)
  let media := body.takeWhile (· ≠ ',')
  if media.length = body.length then throw .noComma
  let bytes := percentDecoded (Text.utf8 (String.ofList (body.drop (media.length + 1))))
  let bytes ←
    if ";base64".toList.isSuffixOf media then
      match Text.unarmor64 (bytes.map fun b => Char.ofNat b.toNat) with
      | .ok bs => pure bs
      | .error e => throw (.badArmor e)
    else pure bytes
  match Text.ofUtf8 bytes with
  | .ok s => return s
  | .error e => throw (.badText e)

end DataUrl

end Scrap
