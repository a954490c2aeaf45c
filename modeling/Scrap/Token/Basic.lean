import Scrap.Number.Decimal
import Scrap.Text.Quoted

/-! # Tokens

Places count lines and columns from one and bytes from zero; a token that was not read from a text has minus one
everywhere. -/

namespace Scrap

structure Location where
  line : Int := -1
  column : Int := -1
  byte : Int := -1
deriving DecidableEq, Repr, Inhabited

structure Extent where
  start : Location := {}
  stop : Location := {}
deriving DecidableEq, Repr, Inhabited

inductive Lexeme where
  | int (value : Int)
  | float (value : Binary64)
  | string (value : String)
  | bytes (value : String) (base : Int)
  | operator (symbol : String)
  | name (value : String)
  | leftParen
  | rightParen
  | leftBrace
  | rightBrace
  | leftBracket
  | rightBracket
  | hash
  | endOfInput
deriving DecidableEq, Repr, Inhabited

structure Token where
  lexeme : Lexeme
  extent : Extent := {}
deriving DecidableEq, Repr, Inhabited

def Location.description (l : Location) : String :=
  "SourceLocation(lineno=" ++ Decimal.intText l.line ++ ", colno=" ++ Decimal.intText l.column ++ ", byteno=" ++
    Decimal.intText l.byte ++ ")"

def Extent.description (e : Extent) : String :=
  "SourceExtent(start=" ++ e.start.description ++ ", end=" ++ e.stop.description ++ ")"

namespace Lexeme

def kind : Lexeme → String
  | .int _ => "IntLit"
  | .float _ => "FloatLit"
  | .string _ => "StringLit"
  | .bytes _ _ => "BytesLit"
  | .operator _ => "Operator"
  | .name _ => "Name"
  | .leftParen => "LeftParen"
  | .rightParen => "RightParen"
  | .leftBrace => "LeftBrace"
  | .rightBrace => "RightBrace"
  | .leftBracket => "LeftBracket"
  | .rightBracket => "RightBracket"
  | .hash => "Hash"
  | .endOfInput => "EOF"

def payload : Lexeme → String
  | .int n => ", value=" ++ Decimal.intText n
  | .float x => ", value=" ++ x.text
  | .string s => ", value=" ++ Text.literal s
  | .bytes s base => ", value=" ++ Text.literal s ++ ", base=" ++ Decimal.intText base
  | .operator s => ", value=" ++ Text.literal s
  | .name s => ", value=" ++ Text.literal s
  | _ => ""

def isCloser : Lexeme → Bool
  | .rightParen => true
  | .rightBrace => true
  | .rightBracket => true
  | _ => false

end Lexeme

def Token.description (t : Token) : String :=
  t.lexeme.kind ++ "(source_extent=" ++ t.extent.description ++ t.lexeme.payload ++ ")"

end Scrap
