import Scrap.DataUrl
import Scrap.Json
import Scrap.Number.Arithmetic
import Scrap.Term.FreeVars
import Scrap.Term.Match
import Scrap.Term.Printer
import Scrap.Wire.Decoder

/-! # Sessions and failures of evaluation

What evaluation changes: the heap, what the printer remembers, and the log of evaluated terms, if one is kept. -/

namespace Scrap

inductive EvalError where
  | notANumber (kind : String)
  | notAString (kind : String)
  | notABoolean (kind : String)
  | notAList (kind : String)
  | arithmetic (cause : NumberError)
  | unbound (name : String)
  | noHandler (op : BinaryOp)
  | conditionFailed (condition : String)
  | paramNotVariable (param : String)
  | bindingNotAssignment
  | freeVars (cause : FreeVarsError)
  | matching (cause : MatchError)
  | noMatchingCase
  | notAClosure (kind : String)
  | notAFunction (kind : String)
  | closureParamNotVariable
  | fieldNotAName (kind : String)
  | noField (name : String)
  | indexNotAnInteger (kind : String)
  | indexOutOfBounds (index : String)
  | noParts (kind : String)
  | spreadEvaluated
  | notEvaluable (term : String)
  | printing (cause : PrintError)
  | encoding (cause : EncodeError)
  | decoding (cause : DecodeError)
  | json (cause : JsonError)
  | jsonKind (kind : String)
  | nativeArgument (func wanted kind : String)
  | notBytes
  | fetching (cause : FetchError)
  | outOfFuel
deriving Repr

def EvalError.message : EvalError → String
  | .notANumber k => "expected Int or Float, got " ++ k
  | .notAString k => "expected String, got " ++ k
  | .notABoolean k => "expected #true or #false, got " ++ k
  | .notAList k => "expected List, got " ++ k
  | .arithmetic e => e.message
  | .unbound x => "name '" ++ x ++ "' is not defined"
  | .noHandler op => "no handler for " ++ op.qualifiedName
  | .conditionFailed s => "condition " ++ s ++ " failed"
  | .paramNotVariable s => "expected variable in function definition " ++ s
  | .bindingNotAssignment => ""
  | .freeVars e => e.message
  | .matching e => e.message
  | .noMatchingCase => "no matching cases"
  | .notAClosure k => "attempted to apply a non-closure of type " ++ k
  | .notAFunction k => "attempted to apply a non-function of type " ++ k
  | .closureParamNotVariable => ""
  | .fieldNotAName k => "cannot access record field using " ++ k ++ ", expected a field name"
  | .noField x => "no assignment to " ++ x ++ " found in record"
  | .indexNotAnInteger k => "cannot index into list using type " ++ k ++ ", expected integer"
  | .indexOutOfBounds i => "index " ++ i ++ " out of bounds for list"
  | .noParts k => "attempted to access from type " ++ k
  | .spreadEvaluated => "cannot evaluate a spread"
  | .notEvaluable s => "eval_exp not implemented for " ++ s
  | .printing e => e.message
  | .encoding e => e.message
  | .decoding e => e.message
  | .json e => e.message
  | .jsonKind k => k
  | .nativeArgument f wanted k => f ++ " expected " ++ wanted ++ ", but got " ++ k
  | .notBytes => ""
  | .fetching e => e.message
  | .outOfFuel => "out of fuel"

/-- The heap, what the printer is inside of, and the log, if one is kept. -/
structure Session where
  heap : Heap := {}
  seen : List Term := []
  log : Option (Array String) := none
deriving Inhabited

/-- Evaluation; a failure keeps the session it was found in. -/
abbrev EvalM := ExceptT EvalError (StateM Session)

namespace Session

def heapNow : EvalM Heap := return (← get).heap

def fresh : EvalM Nat := modifyGet fun ⟨heap, seen, log⟩ =>
  (heap.next, ⟨{ heap with next := heap.next + 1 }, seen, log⟩)

def onHeap {α : Type} (f : Heap → α × Heap) : EvalM α := modifyGet fun ⟨heap, seen, log⟩ =>
  let (a, heap) := f heap
  (a, ⟨heap, seen, log⟩)

def printing (p : Heap → Printer String) : StateM Session (Except PrintError String) := modifyGet fun s =>
  let (r, seen) := (p s.heap).run.run s.seen
  (r, { s with seen })

def textOf (t : Term) : EvalM String := do
  match ← (printing t.shown : StateM Session _) with
  | .ok s => return s
  | .error e => throw (.printing e)

def note (line : String) : StateM Session Unit := modify fun s => { s with log := s.log.map (·.push line) }

/-- Logs a term, after `lead`. A term that cannot be printed is left out, and the printer remembers it. -/
def noteTerm (lead : String) (t : Term) : StateM Session Unit := do
  if (← get).log.isSome then
    match ← printing t.shown with
    | .ok s => note (lead ++ s)
    | .error _ => return ()

end Session

end Scrap
