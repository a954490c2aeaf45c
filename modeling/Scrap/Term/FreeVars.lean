import Scrap.Term.Basic

/-! # Free variables

The field of an access counts as a variable, since it is one when the object is a list. A closure has the free
variables of its code. -/

namespace Scrap

inductive FreeVarsError where
  | paramNotVariable
  | bindingNotAssignment
  | undefinedOn (kind : String)
deriving DecidableEq, Repr

def FreeVarsError.message : FreeVarsError → String
  | .paramNotVariable => ""
  | .bindingNotAssignment => ""
  | .undefinedOn kind => "('free_in', " ++ kind ++ ")"

namespace Term

def boundName? : Term → Option String
  | .assign _ x _ => some x
  | _ => none

def paramName? : Term → Option String
  | .var _ x => some x
  | _ => none

def without (x : String) (names : List String) : List String := names.filter (· ≠ x)

mutual

def freeVars : Term → Except FreeVarsError (List String)
  | .int _ _ | .truth _ _ | .float _ _ | .complex _ _ | .string _ _ | .bytes _ _ | .hole _ | .native _ _ => .ok []
  | .variant _ _ v => freeVars v
  | .var _ x => .ok [x]
  | .spread _ x => .ok x.toList
  | .binop _ _ l r => do return (← freeVars l) ++ (← freeVars r)
  | .list _ items => freeVarsAll items
  | .record _ fields => freeVarsFields fields
  | .function _ p b =>
    match p.paramName? with
    | some x => do return without x (← freeVars b)
    | none => .error .paramNotVariable
  | .matchFunction _ cases => freeVarsCases cases
  | .matchCase _ p b => do
    let body ← freeVars b
    let bound ← freeVars p
    return body.filter fun x => !bound.contains x
  | .apply _ f a => do return (← freeVars f) ++ (← freeVars a)
  | .access _ o f => do return (← freeVars o) ++ (← freeVars f)
  | .scope _ b d =>
    match d.boundName? with
    | some x => do return without x (← freeVars b) ++ (← freeVars d)
    | none => .error .bindingNotAssignment
  | .assign _ _ v => freeVars v
  | .closure _ code => freeVars code
  | .assert i v c => .error (.undefinedOn (qualifiedKind (.assert i v c)))
  | .environment i bs => .error (.undefinedOn (qualifiedKind (.environment i bs)))
  | .relocation i n x => .error (.undefinedOn (qualifiedKind (.relocation i n x)))
  | .link i => .error (.undefinedOn (qualifiedKind (.link i)))

def freeVarsAll : List Term → Except FreeVarsError (List String)
  | [] => .ok []
  | t :: ts => do return (← freeVars t) ++ (← freeVarsAll ts)

def freeVarsFields : List (String × Term) → Except FreeVarsError (List String)
  | [] => .ok []
  | (_, t) :: ts => do return (← freeVars t) ++ (← freeVarsFields ts)

def freeVarsCases : List (Term × Term) → Except FreeVarsError (List String)
  | [] => .ok []
  | (p, b) :: cs => do
    let body ← freeVars b
    let bound ← freeVars p
    return body.filter (fun x => !bound.contains x) ++ (← freeVarsCases cs)

end

def sortedNames (names : List String) : List String := names.eraseDups.mergeSort fun a b => a ≤ b

end Term

end Scrap
