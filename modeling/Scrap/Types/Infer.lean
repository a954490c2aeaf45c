import Scrap.Types.Scheme

/-! # Type inference

Every part of a term gets a type, noted under its identity. The type of a definition is generalized over the variables
that the context does not mention. -/

namespace Scrap

structure Inference where
  store : TypeStore := {}
  notes : List (Nat × Ty) := []
deriving Inhabited

abbrev InferM := ExceptT TypingError (StateM Inference)

namespace Infer

def onStore {α : Type} (m : TypeM α) : InferM α := do
  let r ← modifyGet fun (s : Inference) =>
    let (r, store) := m.run.run s.store
    (r, { s with store })
  match r with
  | .ok a => return a
  | .error e => throw e

def fresh : InferM Ty := onStore (TypeM.fresh)

def unify (a b : Ty) : InferM Unit := onStore (TypeM.unify a b)

def note (t : Term) (ty : Ty) : InferM Ty := do
  modify fun s => { s with notes := (t.id, ty) :: s.notes }
  return ty

def literal (t : Term) : InferM Ty :=
  match t with
  | .int _ _ | .truth _ _ => note t .int
  | .float _ _ | .complex _ _ => note t .float
  | .bytes _ _ => note t .bytes
  | .hole _ => note t .hole
  | .string _ _ => note t .string
  | t => throw (.notALiteral t.qualifiedKind)

mutual

/-- The type of what a pattern fits, and the context with the types of its names. -/
def pattern (ctx : TypeContext) : Term → InferM (Ty × TypeContext)
  | t@(.int _ _) => return (← literal t, ctx)
  | t@(.truth _ _) => return (← literal t, ctx)
  | t@(.float _ _) => return (← literal t, ctx)
  | t@(.complex _ _) => return (← literal t, ctx)
  | t@(.bytes _ _) => return (← literal t, ctx)
  | t@(.hole _) => return (← literal t, ctx)
  | t@(.string _ _) => return (← literal t, ctx)
  | t@(.var _ x) => do
    let ty ← fresh
    return (← note t ty, ctx.set x { ty })
  | t@(.list _ items) => do
    let item ← fresh
    let ctx ← patternItems item ctx items
    return (← note t (.list item), ctx)
  | t@(.record _ fields) => do
    let (found, rest, ctx) ← patternFields [] ctx fields
    return (← note t (← onStore (TypeM.row found rest)), ctx)
  | t => throw (.notAPattern t.qualifiedKind)

def patternItems (item : Ty) (ctx : TypeContext) : List Term → InferM TypeContext
  | [] => return ctx
  | .spread _ name :: _ =>
    match name with
    | some x => return ctx.set x { ty := .list item }
    | none => return ctx
  | t :: ts => do
    let (ty, ctx) ← pattern ctx t
    unify item ty
    patternItems item ctx ts

def patternFields (found : Dict Ty) (ctx : TypeContext) :
    List (String × Term) → InferM (Dict Ty × Ty × TypeContext)
  | [] => return (found, .emptyRow, ctx)
  | (_, .spread _ name) :: _ => do
    let rest ← fresh
    match name with
    | some x => return (found, rest, ctx.set x { ty := rest })
    | none => return (found, rest, ctx)
  | (k, t) :: fs => do
    let (ty, ctx) ← pattern ctx t
    patternFields (found.set k ty) ctx fs

end

def name (ctx : TypeContext) (x : String) : InferM Ty :=
  match ctx.get? x with
  | some scheme => onStore (TypeM.instantiate scheme)
  | none => throw (.unbound x)

def application (func arg : Ty) : InferM Ty := do
  let result ← fresh
  unify func (.func arg result)
  return result

def isRecursive : Term → Bool
  | .function _ _ _ => true
  | .matchFunction _ _ => true
  | _ => false

mutual

def infer (ctx : TypeContext) : Term → InferM Ty
  | t@(.int _ _) => literal t
  | t@(.truth _ _) => literal t
  | t@(.float _ _) => literal t
  | t@(.complex _ _) => literal t
  | t@(.bytes _ _) => literal t
  | t@(.hole _) => literal t
  | t@(.string _ _) => literal t
  | t@(.var _ x) => do note t (← name ctx x)
  | t@(.function _ p b) => do
    let arg ← fresh
    match p.paramName? with
    | some x => note t (.func arg (← infer (ctx.set x { ty := arg }) b))
    | none => throw .paramNotVariable
  | t@(.binop _ op l r) => do
    match op.symbol? with
    | none => throw (.noSymbol op)
    | some x =>
      let func ← name ctx x
      let func ← application func (← infer ctx l)
      note t (← application func (← infer ctx r))
  | t@(.scope _ b (.assign _ x v)) => do
    let ty ← if isRecursive v then do infer (ctx.set x { ty := ← fresh }) v else infer ctx v
    let scheme ← onStore (TypeM.generalize ty ctx)
    note t (← infer (ctx.set x scheme) b)
  | .scope _ _ _ => throw .bindingNotAssignment
  | t@(.list _ items) => do
    let item ← fresh
    inferItems item ctx items
    note t (.list item)
  | t@(.matchCase _ p b) => do
    let (arg, found) ← pattern [] p
    note t (.func arg (← infer (ctx.merge found) b))
  | t@(.apply _ f a) => do
    let func ← infer ctx f
    note t (← application func (← infer ctx a))
  | t@(.matchFunction _ cases) => do
    let result ← fresh
    inferCases result ctx cases
    note t result
  | t@(.record _ fields) => do note t (← onStore (TypeM.row (← inferFields [] ctx fields) .emptyRow))
  | .access _ o f => do
    let object ← infer ctx o
    let value ← fresh
    match f with
    | .var _ x =>
      let rest ← fresh
      unify object (.row [(x, value)] rest)
      return value
    | _ => throw .fieldNotAName
  | t => throw (.noType t.qualifiedKind)

def inferItems (item : Ty) (ctx : TypeContext) : List Term → InferM Unit
  | [] => return ()
  | .spread _ _ :: _ => throw .spreadInList
  | t :: ts => do
    unify item (← infer ctx t)
    inferItems item ctx ts

def inferFields (found : Dict Ty) (ctx : TypeContext) : List (String × Term) → InferM (Dict Ty)
  | [] => return found
  | (_, .spread _ _) :: _ => throw .spreadInRecord
  | (k, t) :: fs => do
    let ty ← infer ctx t
    inferFields (found.set k ty) ctx fs

def inferCases (result : Ty) (ctx : TypeContext) : List (Term × Term) → InferM Unit
  | [] => return ()
  | (p, b) :: cs => do
    let (arg, found) ← pattern [] p
    unify result (.func arg (← infer (ctx.merge found) b))
    inferCases result ctx cs

end

def itemVar : Ty := .var 0

def operators : TypeContext :=
  let binary (a b c : Ty) : Scheme := { ty := .func a (.func b c) }
  let onItems (a b : Ty) : Scheme := { vars := ["a"], ty := .func a (.func b (.list itemVar)) }
  [("+", binary .int .int .int), ("-", binary .int .int .int), ("*", binary .int .int .int),
    ("/", binary .int .int .float), ("++", binary .string .string .string),
    (">+", onItems itemVar (.list itemVar)), ("+<", onItems (.list itemVar) itemVar)]

def start : Inference := { store := { vars := #[{ name := "a" }] } }

end Infer

end Scrap
