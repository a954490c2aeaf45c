import Scrap.Eval.Session

/-! # Evaluation

A function captures the part of the environment that its free variables name. A definition evaluates to the environment
with the new name; if its value is a closure, that gets the name too, so that the function can call itself, and the
name is bound to a copy that keeps what the code mentions. Evaluation runs within a given depth. -/

namespace Scrap

namespace Eval

open Session

abbrev Run := Env → Term → EvalM Term

/-- The rules in which evaluations can differ. -/
structure Rules where
  keep : Env → Term → Except EvalError Env
  equal : Heap → Term → Term → Except EvalError Bool
  native : Native → Term → EvalM Term
  quote : Term → EvalM Term

def settled {α : Type} : Except EvalError α → EvalM α
  | .ok a => return a
  | .error e => throw e

/-! ### Views of values -/

def number (t : Term) : EvalM Number := do
  match (← heapNow).resolve t with
  | .int _ n => return .int n
  | .truth _ b => return .int (if b then 1 else 0)
  | .float _ x => return .real x
  | .complex _ z => return .complex z
  | t => throw (.notANumber t.kind)

/-- The name of the kind of an operand in a report, where a truth value read from outside data has a kind of its
own. -/
def numberKind (t : Term) (n : Number) : EvalM String := do
  match (← heapNow).resolve t with
  | .truth _ _ => return "bool"
  | _ => return n.kind

def ofNumber (n : Number) : EvalM Term := do
  let i ← fresh
  match n with
  | .int n => return .int i n
  | .real x => return .float i x
  | .complex z => return .complex i z

def string (t : Term) : EvalM String := do
  match (← heapNow).resolve t with
  | .string _ s => return s
  | t => throw (.notAString t.kind)

def boolean (t : Term) : EvalM Bool := do
  match (← heapNow).resolve t with
  | .variant _ "true" _ => return true
  | .variant _ "false" _ => return false
  | t => throw (.notABoolean t.kind)

def items (t : Term) : EvalM (List Term) := do
  match (← heapNow).resolve t with
  | .list _ xs => return xs
  | t => throw (.notAList t.kind)

/-! ### Operations -/

def arithmetic (ev : Term → EvalM Term) (op : Arithmetic) (l r : Term) : EvalM Term := do
  let x ← ev l
  let a ← number x
  let y ← ev r
  let b ← number y
  match a.apply op b with
  | .ok n => ofNumber n
  | .error e => throw (.arithmetic (e.between (← numberKind x a) (← numberKind y b)))

def comparison (ev : Term → EvalM Term) (op : Comparison) (l r : Term) : EvalM Term := do
  let x ← ev l
  let a ← number x
  let y ← ev r
  let b ← number y
  match a.test op b with
  | .ok b => return .bool b
  | .error e => throw (.arithmetic (e.between (← numberKind x a) (← numberKind y b)))

/-- Evaluates an operation on two operands, the left one first; the logical ones evaluate the right one only if it
decides. -/
def operation (rules : Rules) (ev : Term → EvalM Term) (op : BinaryOp) (l r : Term) : EvalM Term :=
  match op with
  | .add => arithmetic ev .add l r
  | .sub => arithmetic ev .sub l r
  | .mul => arithmetic ev .mul l r
  | .div => arithmetic ev .div l r
  | .floorDiv => arithmetic ev .floorDiv l r
  | .exp => arithmetic ev .pow l r
  | .mod => arithmetic ev .mod l r
  | .equal => do
    let a ← ev l
    let b ← ev r
    return .bool (← settled (rules.equal (← heapNow) a b))
  | .notEqual => do
    let a ← ev l
    let b ← ev r
    return .bool (!(← settled (rules.equal (← heapNow) a b)))
  | .less => comparison ev .less l r
  | .greater => comparison ev .greater l r
  | .lessEqual => comparison ev .lessEqual l r
  | .greaterEqual => comparison ev .greaterEqual l r
  | .boolAnd => do
    if ← boolean (← ev l) then return .bool (← boolean (← ev r)) else return .bool false
  | .boolOr => do
    if ← boolean (← ev l) then return .bool true else return .bool (← boolean (← ev r))
  | .stringConcat => do
    let a ← string (← ev l)
    let b ← string (← ev r)
    return .string (← fresh) (a ++ b)
  | .listCons => do
    let a ← ev l
    let xs ← items (← ev r)
    return .list (← fresh) (a :: xs)
  | .listAppend => do
    let xs ← items (← ev l)
    let a ← ev r
    return .list (← fresh) (xs ++ [a])
  | .rightEval => ev r
  | .hasType => throw (.noHandler op)
  | .pipe => throw (.noHandler op)
  | .reversePipe => throw (.noHandler op)

/-! ### Functions -/

def trimmed (env : Env) (code : Term) : Except EvalError Env :=
  match code.freeVars with
  | .ok names => .ok (env.restrict names)
  | .error e => .error (.freeVars e)

def captureBy (keep : Env → Term → Except EvalError Env) (env : Env) (code : Term) : EvalM Term := do
  let env ← settled (keep env code)
  onHeap fun h => h.newClosure env code

def capture (env : Env) (code : Term) : EvalM Term := captureBy trimmed env code

/-- Gives new lists and records in an environment their identity. -/
def adopt (env : Env) : EvalM Env :=
  env.mapM fun (k, t) => do
    match t with
    | .list 0 xs => return (k, .list (← fresh) xs)
    | .record 0 fs => return (k, .record (← fresh) fs)
    | t => return (k, t)

def select (arg : Term) : List (Term × Term) → EvalM (Env × Term)
  | [] => throw .noMatchingCase
  | (p, b) :: cs => do
    match p.matchPattern (← heapNow) arg with
    | .ok (some found) => return (← adopt found, b)
    | .ok none => select arg cs
    | .error e => throw (.matching e)

def ofJson : Json → Except EvalError Term
  | .null => .error (.jsonKind "<class 'NoneType'>")
  | .float => .error (.jsonKind "<class 'float'>")
  | .bool b => .ok (.truth 0 b)
  | .int n => .ok (.int 0 n)
  | .string s => .ok (.string 0 s)
  | .array xs => do return .list 0 (← all xs)
  | .object fs => do return .record 0 (← fields fs)
where
  all : List Json → Except EvalError (List Term)
    | [] => .ok []
    | x :: xs => do return (← ofJson x) :: (← all xs)
  fields : List (String × Json) → Except EvalError (List (String × Term))
    | [] => .ok []
    | (k, x) :: xs => do return (k, ← ofJson x) :: (← fields xs)

def native (f : Native) (arg : Term) : EvalM Term := do
  let h ← heapNow
  match f, h.resolve arg with
  | .fetch, .string _ s =>
    match DataUrl.content s with
    | .ok text => return .string (← fresh) text
    | .error e => throw (.fetching e)
  | .fetch, t => throw (.nativeArgument "fetch" "String" t.kind)
  | .jsonDecode, .string _ s =>
    match Json.parse s with
    | .error e => throw (.json e)
    | .ok j =>
      match ofJson j with
      | .ok t => onHeap fun h => h.place t
      | .error e => throw e
  | .jsonDecode, t => throw (.nativeArgument "jsondecode" "String" t.kind)
  | .serialize, t =>
    match t.serialized h with
    | .ok bs => return .bytes (← fresh) bs
    | .error e => throw (.encoding e)
  | .deserialize, .bytes _ bs =>
    let r ← onHeap fun heap =>
      let (r, d) := Decoder.parse { data := bs.toArray, heap }
      (r, d.heap)
    match r with
    | .ok t => return t
    | .error e => throw (.decoding e)
  | .deserialize, _ => throw .notBytes
  | .listLength, .list _ xs => return .int (← fresh) xs.length
  | .listLength, t => throw (.nativeArgument "listlength" "List" t.kind)

/-- The rules of the language: a closure keeps what its code mentions, and a comparison that has no end is a failure. -/
def Rules.standard : Rules where
  keep := trimmed
  equal h a b :=
    match a.equal? h b with
    | some r => .ok r
    | none => .error .outOfFuel
  native := Eval.native
  quote t := return t

def applied (rules : Rules) (run : Run) (callee arg : Term) : EvalM Term := do
  match (← heapNow).resolve callee with
  | .native _ f => rules.native f arg
  | .closure e code =>
    match code with
    | .function _ p b =>
      match p.paramName? with
      | some x => run (((← heapNow).envOf e).set x arg) b
      | none => throw .closureParamNotVariable
    | .matchFunction _ cases =>
      let (found, b) ← select arg cases
      run (((← heapNow).envOf e).merge found) b
    | code => throw (.notAFunction code.kind)
  | t => throw (.notAClosure t.kind)

/-! ### Parts -/

def outOfBounds : Term → EvalError
  | .truth _ b => .indexOutOfBounds (if b then "True" else "False")
  | t =>
    match Text.intText? (t.int?.getD 0) with
    | some s => .indexOutOfBounds s
    | none => .printing .tooManyDigits

def part (ev : Term → EvalM Term) (object field : Term) : EvalM Term := do
  let object ← ev object
  match (← heapNow).resolve object with
  | .record _ fields =>
    match field with
    | .var _ x =>
      match Dict.get? fields x with
      | some v => return v
      | none => throw (.noField x)
    | t => throw (.fieldNotAName t.kind)
  | .list _ xs =>
    let index := (← heapNow).resolve (← ev field)
    match index.int? with
    | none => throw (.indexNotAnInteger index.kind)
    | some n =>
      match if n < 0 then none else xs[n.toNat]? with
      | some t => return t
      | none => throw (outOfBounds index)
  | t => throw (.noParts t.kind)

/-! ### Terms -/

def define (rules : Rules) (ev : Term → EvalM Term) (env : Env) (name : String) (source : Term) : EvalM Term := do
  let value ← ev source
  let value ←
    match value with
    | .closure e code => do
      onHeap fun h => ((), h.bind e name value)
      captureBy rules.keep ((← heapNow).envOf e) code
    | value => pure value
  return .environment (← fresh) (env.set name value)

def step (rules : Rules) (run : Run) (env : Env) (t : Term) : EvalM Term := do
  let ev := run env
  let t := (← heapNow).resolve t
  match t with
  | .int _ _ | .truth _ _ | .float _ _ | .complex _ _ | .string _ _ | .bytes _ _ | .hole _ | .closure _ _
  | .native _ _ => return t
  | .variant _ tag v =>
    let v ← ev v
    return .variant (← fresh) tag v
  | .var _ x =>
    match env.get? x with
    | some v => return v
    | none => throw (.unbound x)
  | .binop _ op l r => operation rules ev op l r
  | .list _ xs =>
    let xs ← xs.mapM ev
    return .list (← fresh) xs
  | .record _ fs =>
    let fs ← fs.mapM fun (k, v) => do return (k, ← ev v)
    return .record (← fresh) fs
  | .assign _ x v => define rules ev env x v
  | .scope _ b d =>
    match d with
    | .assign _ _ _ =>
      match ← ev d with
      | .environment _ bs => run (env.merge bs) b
      | _ => throw .bindingNotAssignment
    | _ => throw .bindingNotAssignment
  | .assert _ v c =>
    let found ← ev c
    if ← settled (rules.equal (← heapNow) found (.bool true)) then ev v
    else throw (.conditionFailed (← Session.textOf c))
  | .function _ p _ =>
    match p with
    | .var _ _ => captureBy rules.keep env t
    | _ => throw (.paramNotVariable (← Session.textOf p))
  | .matchFunction _ _ => captureBy rules.keep env t
  | .apply _ f a =>
    match f with
    | .var _ "$$quote" => rules.quote a
    | _ =>
      let callee ← ev f
      let arg ← ev a
      applied rules run callee arg
  | .access _ o f => part ev o f
  | .spread _ _ => throw .spreadEvaluated
  | .matchCase _ _ _ | .environment _ _ | .relocation _ _ _ | .link _ =>
    throw (.notEvaluable (← Session.textOf t))

end Eval

def evalBy (rules : Eval.Rules) : Nat → Env → Term → EvalM Term
  | 0, _, _ => throw .outOfFuel
  | fuel + 1, env, t => do
    Session.noteTerm "" t
    Eval.step rules (evalBy rules fuel) env t

def eval (fuel : Nat) (env : Env) (t : Term) : EvalM Term := evalBy .standard fuel env t

end Scrap
