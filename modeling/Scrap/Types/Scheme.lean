import Scrap.Types.Unify
import Scrap.Term.FreeVars

/-! # Type schemes

A use of a scheme replaces the variables that stand for any type by new ones. -/

namespace Scrap

structure Scheme where
  vars : List String := []
  ty : Ty
deriving Repr, Inhabited

abbrev TypeContext := Dict Scheme

namespace TypeStore

def freeWithin (s : TypeStore) : Nat → Ty → Except TypingError (List String)
  | 0, _ => .error .outOfFuel
  | fuel + 1, t =>
    match s.find t with
    | .var i => .ok [s.nameOf i]
    | .con _ args => do return (← args.mapM (freeWithin s fuel)).flatten
    | .emptyRow => .ok []
    | .row fields rest => do
      let inFields ← fields.mapM fun (_, t) => freeWithin s fuel t
      return inFields.flatten ++ (← freeWithin s fuel rest)
    | .bare => .error (.unknownType "MonoType()")

def free (s : TypeStore) (t : Ty) : Except TypingError (List String) := s.freeWithin (s.weight t) t

def schemeText (s : TypeStore) (scheme : Scheme) : Except TypingError String := do
  return "(forall " ++ ", ".intercalate (scheme.vars.map ("'" ++ ·)) ++ ". " ++ (← s.text scheme.ty) ++ ")"

end TypeStore

namespace TypeM

def free (t : Ty) : TypeM (List String) := reading fun s => s.free t

def substWithin (names : Dict Ty) : Nat → Ty → TypeM Ty
  | 0, _ => throw .outOfFuel
  | fuel + 1, t => do
    match ← find t with
    | .var i => return (names.get? ((← get).nameOf i)).getD (.var i)
    | .con name args => return .con name (← args.mapM (substWithin names fuel))
    | .emptyRow => return .emptyRow
    | .row fields rest =>
      match ← substWithin names fuel rest with
      | .var i => row (← fields.mapM fun (k, t) => return (k, ← substWithin names fuel t)) (.var i)
      | .emptyRow => row (← fields.mapM fun (k, t) => return (k, ← substWithin names fuel t)) .emptyRow
      | _ => throw .restNotVariable
    | .bare => throw (.unknownType "MonoType()")

/-- Replaces unbound variables by their names. The rest of a row must not stand for a further row. -/
def subst (t : Ty) (names : Dict Ty) : TypeM Ty := do substWithin names ((← get).weight t) t

def instantiate (scheme : Scheme) : TypeM Ty := do
  let mut names : Dict Ty := []
  for x in scheme.vars do
    names := names.set x (← fresh)
  subst scheme.ty names

def freeInContext (ctx : TypeContext) : TypeM (List String) := do
  let names ← ctx.mapM fun (_, scheme) => return (← free scheme.ty).filter fun x => !scheme.vars.contains x
  return names.flatten

/-- Makes a scheme of a type: its variables that the context does not mention stand for any type. -/
def generalize (t : Ty) (ctx : TypeContext) : TypeM Scheme := do
  let names ← free t
  let fixed ← freeInContext ctx
  return { vars := Term.sortedNames (names.filter fun x => !fixed.contains x), ty := t }

def letters : List String := "abcdefghijklmnopqrstuvwxyz".toList.map Char.toString

/-- Renames the variables of a type to letters, in the order of their names. -/
def minimize (t : Ty) : TypeM Ty := do
  let names := Term.sortedNames (← free t)
  if letters.length < names.length then throw .tooManyVariables
  let mut renamed : Dict Ty := []
  for (x, letter) in names.zip letters do
    renamed := renamed.set x (← newVar letter)
  subst t renamed

def funcType : List Ty → TypeM Ty
  | [a, b] => return .func a b
  | a :: ts => return .func a (← funcType ts)
  | [] => throw .tooFewTypes

end TypeM

end Scrap
