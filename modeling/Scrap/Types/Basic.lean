import Scrap.Operator

/-! # Types

A type is a variable, a constructor with arguments, or a row of fields, which ends in the empty row or goes on in a
variable. Variables live in a store; two of them can have the same name. -/

namespace Scrap

inductive Ty where
  | var (index : Nat)
  | con (name : String) (args : List Ty)
  | row (fields : List (String × Ty)) (rest : Ty)
  | emptyRow
  /-- A type of no further known form, which nothing but itself is related to. -/
  | bare
deriving Repr, Inhabited

namespace Ty

def int : Ty := .con "int" []
def string : Ty := .con "string" []
def float : Ty := .con "float" []
def bytes : Ty := .con "bytes" []
def hole : Ty := .con "hole" []

def func (arg result : Ty) : Ty := .con "->" [arg, result]

def list (item : Ty) : Ty := .con "list" [item]

def kind : Ty → String
  | .var _ => "<class 'scrapscript.TyVar'>"
  | .con _ _ => "<class 'scrapscript.TyCon'>"
  | .row _ _ => "<class 'scrapscript.TyRow'>"
  | .emptyRow => "<class 'scrapscript.TyEmptyRow'>"
  | .bare => "<class 'scrapscript.MonoType'>"

mutual

def size : Ty → Nat
  | .var _ => 1
  | .con _ args => 1 + sizeAll args
  | .row fields rest => 1 + sizeFields fields + size rest
  | .emptyRow => 1
  | .bare => 1

def sizeAll : List Ty → Nat
  | [] => 0
  | t :: ts => size t + sizeAll ts

def sizeFields : List (String × Ty) → Nat
  | [] => 0
  | (_, t) :: fs => size t + sizeFields fs

end

end Ty

structure TypeVar where
  name : String
  bound : Option Ty := none
deriving Repr, Inhabited

structure TypeStore where
  vars : Array TypeVar := #[]
  counter : Nat := 0
deriving Inhabited

/-- Why a type cannot be found or changed. Types appear as their texts. -/
inductive TypingError where
  | mismatch (left right : String)
  | occurs (name type : String)
  | rowWithEmpty (row : String)
  | emptyWithRow (row : String)
  | unrelated (left right : String)
  | notARow (kind : String)
  | unknownType (type : String)
  | emptyRowWithoutRest
  | resolved (name type : String)
  | tooFewTypes
  /-- The rest of a row that stands for a further row. -/
  | restNotVariable
  | tooManyVariables
  | notALiteral (kind : String)
  | notAPattern (kind : String)
  | unbound (name : String)
  | noSymbol (op : BinaryOp)
  | spreadInList
  | spreadInRecord
  | paramNotVariable
  | bindingNotAssignment
  | fieldNotAName
  | noType (kind : String)
  | outOfFuel
deriving Repr

def TypingError.message : TypingError → String
  | .mismatch a b => "Unification failed for " ++ a ++ " and " ++ b
  | .occurs a b => "Occurs check failed for " ++ a ++ " and " ++ b
  | .rowWithEmpty r => "Unifying row " ++ r ++ " with empty row"
  | .emptyWithRow r => "Unifying empty row with row " ++ r
  | .unrelated a b => "Cannot unify " ++ a ++ " and " ++ b
  | .notARow k => "Expected record type, got " ++ k
  | .unknownType t => "Unknown type: " ++ t
  | .emptyRowWithoutRest => "Empty row must have a rest type"
  | .resolved a b => a ++ " is already resolved to " ++ b
  | .tooFewTypes | .restNotVariable | .tooManyVariables | .paramNotVariable | .bindingNotAssignment
  | .fieldNotAName => ""
  | .notALiteral k => k ++ " can't be simply inferred"
  | .notAPattern k => k ++ " isn't allowed in a pattern"
  | .unbound x => "Unbound variable " ++ x
  | .noSymbol op => op.description
  | .spreadInList => "Spread can only occur in list match (for now)"
  | .spreadInRecord => "Spread can only occur in record match (for now)"
  | .noType k => "Unexpected type " ++ k
  | .outOfFuel => "out of fuel"

namespace TypeStore

def nameOf (s : TypeStore) (i : Nat) : String := (s.vars.getD i default).name

def bound? (s : TypeStore) (i : Nat) : Option Ty := (s.vars.getD i default).bound

def findWithin (s : TypeStore) : Nat → Ty → Ty
  | 0, t => t
  | fuel + 1, .var i =>
    match s.bound? i with
    | some t => findWithin s fuel t
    | none => .var i
  | _ + 1, t => t

def find (s : TypeStore) (t : Ty) : Ty := s.findWithin (s.vars.size + 1) t

/-- The nodes of all types in the store and of one more: no walk through types without cycles is deeper. -/
def weight (s : TypeStore) (t : Ty) : Nat :=
  s.vars.foldl (fun n v => n + 1 + (v.bound.map Ty.size).getD 0) (t.size + 1)

def flattenWithin (s : TypeStore) : Nat → Ty → Except TypingError (Dict Ty × Ty)
  | 0, _ => .error .outOfFuel
  | fuel + 1, t =>
    match s.find t with
    | .var i => .ok ([], .var i)
    | .row fields rest => do
      let (flat, rest) ← flattenWithin s fuel rest
      return (flat.merge fields, rest)
    | .emptyRow => .ok ([], .emptyRow)
    | t => .error (.notARow t.kind)

/-- All fields of a row and the variable or the empty row that it ends in. Outer fields hide inner ones. -/
def flatten (s : TypeStore) (t : Ty) : Except TypingError (Dict Ty × Ty) := s.flattenWithin (s.weight t) t

def inKeyOrder {α : Type} (fields : Dict α) : Dict α := fields.mergeSort fun a b => a.1 ≤ b.1

def textWithin (s : TypeStore) : Nat → Ty → Except TypingError String
  | 0, _ => .error .outOfFuel
  | _ + 1, .var i => .ok ("'" ++ s.nameOf i)
  | fuel + 1, .con name args => do
    match ← args.mapM (textWithin s fuel) with
    | [] => return name
    | [a] => return "(" ++ a ++ " " ++ name ++ ")"
    | texts => return "(" ++ name.intercalate texts ++ ")"
  | fuel + 1, .row fields rest => do
    let (flat, rest) ← s.flatten (.row fields rest)
    let texts ← (inKeyOrder flat).mapM fun (k, t) => return k ++ "=" ++ (← textWithin s fuel t)
    let tail := match rest with
      | .var i => ["...'" ++ s.nameOf i]
      | _ => []
    return "\x7b" ++ ", ".intercalate (texts ++ tail) ++ "\x7d"
  | _ + 1, .emptyRow => .ok "\x7b\x7d"
  | _ + 1, .bare => .ok "MonoType()"

/-- The text of a type. Bound variables show their names, except that rows show all their fields. -/
def text (s : TypeStore) (t : Ty) : Except TypingError String := s.textWithin (s.weight t) t

end TypeStore

/-- Computations that read and change the type variables; a failure keeps what was bound before. -/
abbrev TypeM := ExceptT TypingError (StateM TypeStore)

namespace TypeM

def reading {α : Type} (f : TypeStore → Except TypingError α) : TypeM α := do
  match f (← get) with
  | .ok a => return a
  | .error e => throw e

def find (t : Ty) : TypeM Ty := return (← get).find t

def text (t : Ty) : TypeM String := reading fun s => s.text t

def newVar (name : String) : TypeM Ty := modifyGet fun s =>
  (.var s.vars.size, { s with vars := s.vars.push { name } })

def fresh (lead : String := "t") : TypeM Ty := do
  let n := (← get).counter
  modify fun s => { s with counter := s.counter + 1 }
  newVar (lead ++ toString n)

def makeEqual (t other : Ty) : TypeM Unit := do
  match ← find t with
  | .var i => modify fun s => { s with vars := s.vars.modify i fun v => { v with bound := some other } }
  | found => throw (.resolved (← text t) (← text found))

/-- A row of fields; without fields it has to be open. -/
def row (fields : Dict Ty) (rest : Ty) : TypeM Ty :=
  match fields, rest with
  | [], .emptyRow => throw .emptyRowWithoutRest
  | _, _ => return .row fields rest

end TypeM

end Scrap
