import Scrap.Operator
import Scrap.Token.Basic
import Scrap.Text.Integer

/-! # Reading tokens

A token is the longest piece of text of its kind: the digits of a number, the characters of a name, or an operator
symbol, extended as long as some operator starts with it. White space and comments separate tokens. -/

namespace Scrap

inductive ScanError where
  | unexpected (text : String)
  | invalid (extent : Extent)
  | endInToken
  | endInString
  | integer (cause : Text.IntegerError)
  | notANumber (text : String)
deriving DecidableEq, Repr

def ScanError.message : ScanError → String
  | .unexpected s => "unexpected token " ++ Text.literal s
  | .invalid e => e.description
  | .endInToken => "while reading token"
  | .endInString => "while reading string"
  | .integer e => e.message
  | .notANumber s => "could not convert string to float: " ++ Text.literal s

/-- A position in a text: what is left of it, how many characters have been passed, the place of the next one, the
part of its line before it, and the extent of the token being read. -/
structure Scanner where
  rest : List Char
  index : Nat := 0
  place : Location := ⟨1, 1, 0⟩
  line : String := ""
  extent : Extent := ⟨⟨1, 1, 0⟩, ⟨1, 1, 0⟩⟩
deriving Repr, Inhabited

def isNameChar (c : Char) : Bool := Text.isAlphanumeric c || c = '$' || c = '\'' || c = '_'

namespace Scanner

def ofText (text : String) : Scanner := { rest := text.toList }

def markStart (s : Scanner) : Scanner := { s with extent := { s.extent with start := s.place } }

/-- Passes over the next character, `c`; the token read so far ends with it. -/
def advance (s : Scanner) (c : Char) : Scanner :=
  let place := s.place
  { rest := s.rest.tail
    index := s.index + 1
    place :=
      if c = '\n' then ⟨place.line + 1, 1, place.byte + c.utf8Size⟩
      else ⟨place.line, place.column + 1, place.byte + c.utf8Size⟩
    line := if c = '\n' then "" else s.line.push c
    extent := { s.extent with stop := place } }

def advanceOver (s : Scanner) (cs : List Char) : Scanner := cs.foldl advance s

def readChar (s : Scanner) : Except ScanError Char × Scanner :=
  match s.rest with
  | [] => (.error .endInToken, { s with extent := { s.extent with stop := s.place } })
  | c :: _ => (.ok c, s.advance c)

def peekChar (s : Scanner) : Except ScanError Char :=
  match s.rest with
  | [] => .error .endInToken
  | c :: _ => .ok c

def hasInput (s : Scanner) : Bool := !s.rest.isEmpty

def token (s : Scanner) (lexeme : Lexeme) : Except ScanError Token × Scanner := (.ok ⟨lexeme, s.extent⟩, s)

def skipLine (s : Scanner) : Scanner :=
  let s := s.advanceOver (s.rest.takeWhile (· ≠ '\n'))
  match s.rest with
  | [] => s
  | c :: _ => s.advance c

/-- Passes over white space; the token that follows starts after it, or at the last blank if nothing follows. -/
def skipBlanks (s : Scanner) : Scanner :=
  (s.rest.takeWhile Text.isBlank).foldl (fun s c => s.markStart.advance c) s

def readString (s : Scanner) : Except ScanError Token × Scanner :=
  let body := s.rest.takeWhile (· ≠ '"')
  let s := s.advanceOver body
  match s.rest with
  | [] => (.error .endInString, s)
  | c :: _ => (s.advance c).token (.string (String.ofList body))

def intLexeme (ds : List Char) : Except ScanError Lexeme :=
  match Text.readInt (String.ofList ds) with
  | .ok n => .ok (.int n)
  | .error e => .error (.integer e)

def floatLexeme (whole fraction : List Char) : Except ScanError Lexeme :=
  match Text.decimalValues? (whole ++ fraction) with
  | some vs => .ok (.float (Binary64.ofRatio false (Text.ofDigits vs) (Nat.pow 10 fraction.length)))
  | none => .error (.notANumber (String.ofList (whole ++ ['.'] ++ fraction)))

/-- A number whose first digit has been passed. A second point is refused. -/
def readNumber (s : Scanner) (first : Char) : Except ScanError Token × Scanner :=
  let more := s.rest.takeWhile Text.isDigit
  let s := s.advanceOver more
  let whole := first :: more
  let finish (s : Scanner) (l : Except ScanError Lexeme) : Except ScanError Token × Scanner :=
    match l with
    | .ok l => s.token l
    | .error e => (.error e, s)
  match s.rest with
  | '.' :: after =>
    let fraction := after.takeWhile Text.isDigit
    let s := (s.advance '.').advanceOver fraction
    match s.rest with
    | '.' :: _ => (.error (.unexpected "."), s)
    | _ => finish s (floatLexeme whole fraction)
  | _ => finish s (intLexeme whole)

/-- The characters by which `taken` can be extended and still start an operator. -/
def operatorTail (taken : List Char) : List Char → List Char
  | [] => []
  | c :: r => if Operator.startsWith (taken ++ [c]) then c :: operatorTail (taken ++ [c]) r else []

def readOperator (s : Scanner) (first : Char) : Except ScanError Token × Scanner :=
  let more := operatorTail [first] s.rest
  let s := s.advanceOver more
  let symbol := String.ofList (first :: more)
  if Operator.table.has symbol then s.token (.operator symbol) else (.error (.unexpected symbol), s)

def readName (s : Scanner) (first : Char) : Except ScanError Token × Scanner :=
  let more := s.rest.takeWhile isNameChar
  (s.advanceOver more).token (.name (String.ofList (first :: more)))

/-- Bytes, whose two leading tildes have been passed: up to the next blank, the base before the last quote. -/
def readBytes (s : Scanner) : Except ScanError Token × Scanner :=
  let body := s.rest.takeWhile fun c => !Text.isBlank c
  let s := s.advanceOver body
  let value := (body.reverse.takeWhile (· ≠ '\'')).reverse
  let base := String.ofList (body.take (body.length - value.length - 1))
  if base = "" then s.token (.bytes (String.ofList value) 64)
  else match Text.readInt base with
    | .ok n => s.token (.bytes (String.ofList value) n)
    | .error e => (.error (.integer e), s)

def bracket? : Char → Option Lexeme
  | '(' => some .leftParen
  | ')' => some .rightParen
  | '[' => some .leftBracket
  | ']' => some .rightBracket
  | '\x7b' => some .leftBrace
  | '\x7d' => some .rightBrace
  | _ => none

/-- The token that starts with `c`, which has been passed; comments are no tokens. -/
def readFrom (s : Scanner) (c : Char) : Except ScanError Token × Scanner :=
  if c = '"' then s.readString
  else if c = '#' then s.token .hash
  else if c = '~' then
    match s.rest with
    | '~' :: _ => (s.advance '~').readBytes
    | _ => (.error (.unexpected "~"), s)
  else if Text.isDigit c then s.readNumber c
  else match bracket? c with
    | some l => s.token l
    | none =>
      if Operator.hasChar c then s.readOperator c
      else if isNameChar c then s.readName c
      else (.error (.invalid s.extent), s)

def readTokenWithin : Nat → Scanner → Except ScanError Token × Scanner
  | 0, s => s.token .endOfInput
  | fuel + 1, s =>
    let s := s.skipBlanks
    match s.rest with
    | [] => s.token .endOfInput
    | c :: after =>
      let s := s.markStart.advance c
      if c = '-' && after.head? = some '-' then readTokenWithin fuel s.skipLine
      else s.readFrom c

/-- Reads the next token. Every comment takes characters, so their number bounds the comments. -/
def readToken (s : Scanner) : Except ScanError Token × Scanner := readTokenWithin (s.rest.length + 1) s

def readAllWithin : Nat → Scanner → Except ScanError (List Token)
  | 0, _ => .ok []
  | fuel + 1, s =>
    match s.readToken with
    | (.error e, _) => .error e
    | (.ok t, s) => if t.lexeme = .endOfInput then .ok [] else (readAllWithin fuel s).map (t :: ·)

end Scanner

def tokenize (text : String) : Except ScanError (List Token) :=
  let s := Scanner.ofText text
  s.readAllWithin (s.rest.length + 1)

end Scrap
