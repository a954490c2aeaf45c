/-! # Code

Compiled programs: functions over local variables that are set once, constant objects, and the numbered names of fields
and tags. A test of a pattern may jump forward to a label. -/

namespace Scrap.Code

inductive Literal where
  | int (value : Int)
  | truth (value : Bool)
deriving DecidableEq, Repr, Inhabited

/-- A value that takes no computation: a local variable, an immediate value or a constant object. -/
inductive Operand where
  | name (x : String)
  | hole
  | int (value : Literal)
  | emptyList
  /-- A string of less than eight bytes. -/
  | shortString (value : String)
  | tag (tag : String)
  | constant (name : String)
deriving DecidableEq, Repr, Inhabited

inductive Operation where
  | add | sub | mul
deriving DecidableEq, Repr

/-- A computation whose result a local variable takes. -/
inductive Call where
  | captured (name : String) (position : Nat)
  | payload (x : String)
  | first (x : String)
  | rest (x : String)
  | field (record : Operand) (key : String)
  | newRecord (size : Nat)
  | newClosure (func : String) (size : Nat)
  | newVariant (tag : String)
  | emptyList
  | arithmetic (op : Operation) (left right : Operand)
  | cons (item list : Operand)
  | concat (left right : Operand)
  | apply (func arg : Operand)
  | build (builder : String) (args : List Operand)
deriving DecidableEq, Repr

inductive Test where
  | notInt (x : String) (value : Literal)
  | notHole (x : String)
  | notTag (x tag : String)
  | notVariant (x : String)
  | otherTag (x tag : String)
  | notShortString (x value : String)
  | notString (x : String)
  | otherString (x value : String)
  | notList (x : String)
  | empty (x : String)
  | notEmpty (x : String)
  | notRecord (x : String)
  | absent (x : String)
  | otherSize (x : String) (size : Nat)
deriving DecidableEq, Repr

inductive Requirement where
  | number (x : Operand)
  | string (x : Operand)
  | record (x : Operand)
  | present (x key : String)
deriving DecidableEq, Repr

/-- Where a failed test goes on: the case of a number, or the end of all cases. -/
inductive Label where
  | case (number : Nat)
  | noMatch
deriving DecidableEq, Repr

inductive Statement where
  | enter
  | protect (x : String)
  | bind (x : String) (call : Call)
  | setField (record : String) (position : Nat) (key value : String)
  | setCaptured (closure name : String) (position : Nat) (value : Operand)
  | setPayload (variant : String) (value : Operand)
  | collect
  | require (r : Requirement)
  | jumpIf (t : Test) (target : Label)
  | return (value : Operand)
  | label (l : Label)
  | noMatch
deriving DecidableEq, Repr

/-- A function: its parameters, the names it captures in the order of their positions, and its statements. -/
structure Function where
  name : String
  params : List String
  captures : List String := []
  body : Array Statement := #[]
deriving Repr, Inhabited

inductive Constant where
  | list (first rest : Operand)
  | string (value : String)
  | variant (tag : String) (value : Operand)
  | record (fields : List (String × Operand))
  | closure (func : String)
deriving Repr, Inhabited

/-- A compiled program. The first function is the one that runs. Keys and tags have the numbers they were given when the
compiler first came to them. -/
structure Program where
  functions : Array Function := #[]
  constants : Array (String × Constant) := #[]
  keyNumbers : List (String × Nat) := []
  tagNumbers : List (String × Nat) := []
deriving Repr, Inhabited

def Program.keys (p : Program) : List String := p.keyNumbers.map Prod.fst

def Program.tags (p : Program) : List String := p.tagNumbers.map Prod.fst

/-- The numbers with one more name, whose number is that of the names before it. -/
def numbered (numbers : List (String × Nat)) (name : String) : List (String × Nat) :=
  numbers ++ [(name, numbers.length)]

theorem map_fst_numbered (numbers : List (String × Nat)) (name : String) :
    (numbered numbers name).map Prod.fst = numbers.map Prod.fst ++ [name] := List.map_append

end Scrap.Code
