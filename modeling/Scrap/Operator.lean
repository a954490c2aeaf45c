import Scrap.Dict

/-! # Operators

Every operator binds with one strength to its left and another to its right, in tenths. Some operators stand for an
operation on two values, others for a form of the language. -/

namespace Scrap

/-- How tightly an operator binds, in tenths. -/
abbrev Strength := Int

structure Binding where
  left : Strength
  right : Strength
deriving DecidableEq, Repr

namespace Binding

def looserRight (n : Strength) : Binding := ⟨n, n - 1⟩

def tighterRight (n : Strength) : Binding := ⟨n, n + 1⟩

def even (n : Strength) : Binding := ⟨n, n⟩

def openRight (n : Strength) : Binding := ⟨n, 0⟩

end Binding

namespace Operator

def juxtaposition : Binding := .tighterRight 10000

def table : Dict Binding :=
  [("::", .looserRight 20000), ("@", .tighterRight 10010), ("", juxtaposition),
   (">>", .looserRight 140), ("<<", .looserRight 140), ("^", .tighterRight 130),
   ("*", .tighterRight 120), ("/", .tighterRight 120), ("//", .looserRight 120), ("%", .looserRight 120),
   ("+", .looserRight 110), ("-", .looserRight 110),
   (">*", .tighterRight 100), ("++", .tighterRight 100), (">+", .looserRight 100), ("+<", .tighterRight 100),
   ("==", .even 90), ("/=", .even 90), ("<", .even 90), (">", .even 90), ("<=", .even 90), (">=", .even 90),
   ("&&", .tighterRight 80), ("||", .tighterRight 70),
   ("|>", .tighterRight 60), ("<|", .looserRight 60),
   ("#", .looserRight 55), ("->", .looserRight 50), ("|", .tighterRight 45), (":", .looserRight 45),
   ("=", .tighterRight 40), ("!", .looserRight 30), (".", .tighterRight 30), ("?", .tighterRight 30),
   (",", .openRight 10), ("...", .openRight 0)]

def binding? (symbol : String) : Option Binding := table.get? symbol

def binding (symbol : String) : Binding := (binding? symbol).getD juxtaposition

def highest : Strength := 20000

def startsWith (cs : List Char) : Bool := table.keys.any fun s => cs.isPrefixOf s.toList

def hasChar (c : Char) : Bool := table.keys.any fun s => s.toList.contains c

end Operator

inductive BinaryOp where
  | add | sub | mul | div | floorDiv | exp | mod
  | equal | notEqual | less | greater | lessEqual | greaterEqual
  | boolAnd | boolOr | stringConcat | listCons | listAppend | rightEval | hasType | pipe | reversePipe
deriving DecidableEq, Repr, Inhabited

namespace BinaryOp

def all : List BinaryOp :=
  [.add, .sub, .mul, .div, .floorDiv, .exp, .mod, .equal, .notEqual, .less, .greater, .lessEqual, .greaterEqual,
   .boolAnd, .boolOr, .stringConcat, .listCons, .listAppend, .rightEval, .hasType, .pipe, .reversePipe]

def name : BinaryOp → String
  | .add => "ADD"
  | .sub => "SUB"
  | .mul => "MUL"
  | .div => "DIV"
  | .floorDiv => "FLOOR_DIV"
  | .exp => "EXP"
  | .mod => "MOD"
  | .equal => "EQUAL"
  | .notEqual => "NOT_EQUAL"
  | .less => "LESS"
  | .greater => "GREATER"
  | .lessEqual => "LESS_EQUAL"
  | .greaterEqual => "GREATER_EQUAL"
  | .boolAnd => "BOOL_AND"
  | .boolOr => "BOOL_OR"
  | .stringConcat => "STRING_CONCAT"
  | .listCons => "LIST_CONS"
  | .listAppend => "LIST_APPEND"
  | .rightEval => "RIGHT_EVAL"
  | .hasType => "HASTYPE"
  | .pipe => "PIPE"
  | .reversePipe => "REVERSE_PIPE"

def number (op : BinaryOp) : Nat := all.idxOf op + 1

/-- The symbol with which an operation is written. Floor division can be read but has no written form. -/
def symbol? : BinaryOp → Option String
  | .add => some "+"
  | .sub => some "-"
  | .mul => some "*"
  | .div => some "/"
  | .floorDiv => none
  | .exp => some "^"
  | .mod => some "%"
  | .equal => some "=="
  | .notEqual => some "/="
  | .less => some "<"
  | .greater => some ">"
  | .lessEqual => some "<="
  | .greaterEqual => some ">="
  | .boolAnd => some "&&"
  | .boolOr => some "||"
  | .stringConcat => some "++"
  | .listCons => some ">+"
  | .listAppend => some "+<"
  | .rightEval => some "!"
  | .hasType => some ":"
  | .pipe => some "|>"
  | .reversePipe => some "<|"

def ofSymbol? (s : String) : Option BinaryOp :=
  if s = "//" then some .floorDiv else all.find? fun op => op.symbol? = some s

def ofName? (s : String) : Option BinaryOp := all.find? fun op => op.name = s

def qualifiedName (op : BinaryOp) : String := "BinopKind." ++ op.name

def description (op : BinaryOp) : String := "<" ++ op.qualifiedName ++ ": " ++ toString op.number ++ ">"

end BinaryOp

end Scrap
