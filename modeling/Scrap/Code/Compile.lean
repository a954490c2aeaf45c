import Scrap.Code.Basic
import Scrap.Term.Printer
import Scrap.Text.Utf8
import Scrap.Types.Infer

/-! # Compilation

Terms without computation become constant objects, all others are computed into new local variables. A function finds
itself in the variable `this`, and what it captures in its closure, in alphabetical order. -/

namespace Scrap

inductive CompileError where
  | unbound (name : String)
  /-- A captured name that is not in scope where the function stands. -/
  | missingCapture (name : String)
  | freeVars (cause : FreeVarsError)
  | bindingNotAssignment
  | fieldNotAName (kind : String)
  | longShortString
  | noOperation (op : BinaryOp)
  | notCompilable (kind term : String)
  | notAPattern (description : String)
  | namedSpread
  | printing (cause : PrintError)
deriving Repr

def CompileError.message : CompileError → String
  | .unbound x => "name '" ++ x ++ "' is not defined"
  | .missingCapture x => Text.literal x
  | .freeVars e => e.message
  | .bindingNotAssignment => ""
  | .fieldNotAName k => "only Var access is supported, got " ++ k
  | .longShortString => "small string must be less than 8 bytes"
  | .noOperation op => "binop " ++ op.qualifiedName
  | .notCompilable k t => "exp " ++ k ++ " " ++ t
  | .notAPattern d => "('try_match', " ++ d ++ ")"
  | .namedSpread => "named record spread not yet supported"
  | .printing e => e.message

namespace Compile

open Code

/-- What compilation depends on: whether to collect often, the types that are known, and the heap of the term. -/
structure Setting where
  debug : Bool := false
  inference : Inference := {}
  heap : Heap := {}

/-- The program so far, the number of names made, the function that is being written, and the builders of records
by their keys. -/
structure Progress where
  program : Program := {}
  made : Nat := 0
  current : Nat := 0
  builders : List (List String × String) := []
deriving Inhabited

abbrev CompileM := ExceptT CompileError (StateM Progress)

abbrev Scope := Dict Operand

/-! ### Writing code -/

def emit (s : Statement) : CompileM Unit := modify fun p =>
  { p with program.functions := p.program.functions.modify p.current fun f => { f with body := f.body.push s } }

def newName (stem : String) : CompileM String := modifyGet fun p =>
  (stem ++ "_" ++ toString p.made, { p with made := p.made + 1 })

def bind (c : Call) : CompileM String := do
  let x ← newName "tmp"
  emit (.bind x c)
  return x

def collect (σ : Setting) : CompileM Unit := if σ.debug then emit .collect else return ()

def useKey (key : String) : CompileM Unit := modify fun p =>
  if p.program.keys.contains key then p else { p with program.keyNumbers := numbered p.program.keyNumbers key }

def useTag (tag : String) : CompileM Unit := modify fun p =>
  if p.program.tags.contains tag then p else { p with program.tagNumbers := numbered p.program.tagNumbers tag }

def newConstant (stem : String) (c : Constant) : CompileM Operand := do
  let x ← newName stem
  modify fun p => { p with program.constants := p.program.constants.push (x, c) }
  return .constant x

def openFunction (f : Function) : CompileM Nat := do
  let p ← get
  let body := #[Statement.enter] ++ (f.params.map Statement.protect).toArray
  set { p with program.functions := p.program.functions.push { f with body }, current := p.program.functions.size }
  return p.current

def closeFunction (before : Nat) : CompileM Unit := modify fun p => { p with current := before }

def recordBuilder (σ : Setting) (keys : List String) : CompileM String := do
  match List.lookup keys (← get).builders with
  | some name => return name
  | none =>
    let name := "Record_builder_" ++ "_".intercalate keys
    let before ← openFunction { name, params := keys }
    let result ← bind (.newRecord keys.length)
    keys.zipIdx.forM fun (k, i) => do
      useKey k
      emit (.setField result i k k)
    collect σ
    emit (.return (.name result))
    closeFunction before
    modify fun p => { p with builders := (keys, name) :: p.builders }
    return name

/-! ### Requirements -/

def Setting.hasType (σ : Setting) (t : Term) (name : String) : Bool :=
  match List.lookup t.id σ.inference.notes with
  | some ty =>
    match σ.inference.store.find ty with
    | .con n [] => n = name
    | _ => false
  | none => false

def requireNumber (σ : Setting) (t : Term) (x : Operand) : CompileM Unit :=
  if σ.hasType t "int" then return () else emit (.require (.number x))

def requireString (σ : Setting) (t : Term) (x : Operand) : CompileM Unit :=
  if σ.hasType t "string" then return () else emit (.require (.string x))

/-! ### Constants -/

def freeVars (t : Term) : CompileM (List String) :=
  match t.freeVars with
  | .ok names => return names
  | .error e => throw (.freeVars e)

mutual

/-- Whether a term is a constant: it holds no computation, and its functions capture nothing. -/
def isConstant : Term → CompileM Bool
  | .int _ _ | .truth _ _ | .string _ _ | .hole _ => return true
  | .variant _ _ v => isConstant v
  | .record _ fields => areConstantFields fields
  | .list _ items => areConstant items
  | t@(.function _ _ _) => return (← freeVars t).isEmpty
  | _ => return false

def areConstant : List Term → CompileM Bool
  | [] => return true
  | t :: ts => do if ← isConstant t then areConstant ts else return false

def areConstantFields : List (String × Term) → CompileM Bool
  | [] => return true
  | (_, t) :: fs => do if ← isConstant t then areConstantFields fs else return false

end

def literal (n : Int) : CompileM Literal :=
  if (Text.intText? n).isSome then return .int n else throw (.printing .tooManyDigits)

def string (s : String) : CompileM Operand :=
  if s.length < 8 then
    if (Text.utf8 s).length < 8 then return .shortString s else throw .longShortString
  else newConstant "const_heap_string" (.string s)

def constantList : List Operand → CompileM Operand
  | [] => return .emptyList
  | x :: xs => do newConstant "const_list" (.list x (← constantList xs))

def newList : List Operand → CompileM String
  | [] => bind .emptyList
  | x :: xs => do bind (.cons x (.name (← newList xs)))

/-! ### Patterns -/

mutual

/-- Tests a variable against a pattern, going on at `target` if it does not fit, and returns the operands of the
names of the pattern. -/
def tryMatch (σ : Setting) (x : String) (target : Label) : Term → CompileM Scope
  | .int _ n => do
    emit (.jumpIf (.notInt x (← literal n)) target)
    return []
  | .truth _ b => do
    emit (.jumpIf (.notInt x (.truth b)) target)
    return []
  | .hole _ => do
    emit (.jumpIf (.notHole x) target)
    return []
  | .variant _ tag v => do
    useTag tag
    match v with
    | .hole _ =>
      emit (.jumpIf (.notTag x tag) target)
      return []
    | v =>
      emit (.jumpIf (.notVariant x) target)
      emit (.jumpIf (.otherTag x tag) target)
      let y ← bind (.payload x)
      tryMatch σ y target v
  | .string _ s => do
    if s.length < 8 then emit (.jumpIf (.notShortString x s) target)
    else
      emit (.jumpIf (.notString x) target)
      emit (.jumpIf (.otherString x s) target)
    return []
  | .var _ y => return [(y, .name x)]
  | .list _ items => do
    emit (.jumpIf (.notList x) target)
    matchItems σ x target [] items
  | .record _ fields => do
    emit (.jumpIf (.notRecord x) target)
    matchFields σ x target fields.length [] fields
  | t => throw (.notAPattern (t.description σ.heap))

def matchItems (σ : Setting) (x : String) (target : Label) (found : Scope) : List Term → CompileM Scope
  | [] => do
    emit (.jumpIf (.notEmpty x) target)
    return found
  | .spread _ name :: _ =>
    match name with
    | some "" | none => return found
    | some y => return found.set y (.name x)
  | p :: ps => do
    emit (.jumpIf (.empty x) target)
    let first ← bind (.first x)
    let names ← tryMatch σ first target p
    let rest ← bind (.rest x)
    matchItems σ rest target (found.merge names) ps

def matchFields (σ : Setting) (x : String) (target : Label) (count : Nat) (found : Scope) :
    List (String × Term) → CompileM Scope
  | [] => do
    emit (.jumpIf (.otherSize x count) target)
    return found
  | (_, .spread _ name) :: _ =>
    match name with
    | some "" | none => return found
    | some _ => throw .namedSpread
  | (k, p) :: ps => do
    useKey k
    let value ← bind (.field (.name x) k)
    emit (.jumpIf (.absent value) target)
    let names ← tryMatch σ value target p
    matchFields σ x target count (found.merge names) ps

end

/-! ### Functions -/

def newClosure (σ : Setting) (scope : Scope) (f : Function) : CompileM Operand := do
  let c ← bind (.newClosure f.name f.captures.length)
  f.captures.zipIdx.forM fun (x, i) => do
    match scope.get? x with
    | some v => emit (.setCaptured c x i v)
    | none => throw (.missingCapture x)
  collect σ
  return .name c

/-- Writes a function whose statements `body` emits, and makes a closure of it. `name` is the name that the function
has for itself. -/
def function (σ : Setting) (scope : Scope) (name : Option String) (code : Term) (param : String)
    (body : Scope → CompileM Unit) : CompileM Operand := do
  let free ← freeVars code
  let captures := Term.sortedNames (free.filter fun x => some x ≠ name)
  let stem := match name with
    | some "" | none => "fn"
    | some x => x
  let f : Function := { name := ← newName stem, params := ["this", param], captures }
  let before ← openFunction f
  let own : Scope := Dict.set [("this", .name "this")] param (.name param)
  let own := match name with
    | some x => own.set x (.name "this")
    | none => own
  let own ← captures.zipIdx.foldlM (fun s (x, i) => return s.set x (.name (← bind (.captured x i)))) own
  body own
  closeFunction before
  if captures.isEmpty then newConstant "const_closure" (.closure f.name) else newClosure σ scope f

/-! ### Terms -/

mutual

/-- The operand of a term. `name` is the name that the term is being bound to, by which a function can call itself. -/
def compile (σ : Setting) (scope : Scope) (name : Option String) : Term → CompileM Operand
  | .int _ n => return .int (← literal n)
  | .truth _ b => return .int (.truth b)
  | .string _ s => string s
  | .hole _ => return .hole
  | .variant _ tag v => do
    match v with
    | .hole _ =>
      useTag tag
      return .tag tag
    | v =>
      if ← isConstant v then
        useTag tag
        newConstant "const_variant" (.variant tag (← compile σ scope none v))
      else
        collect σ
        useTag tag
        let value ← compile σ scope none v
        let result ← bind (.newVariant tag)
        emit (.setPayload result value)
        return .name result
  | .var _ x =>
    match scope.get? x with
    | some v => return v
    | none => throw (.unbound x)
  | .binop _ op l r => do
    let a ← compile σ scope none l
    let b ← compile σ scope none r
    let arithmetic (op : Operation) : CompileM Operand := do
      collect σ
      requireNumber σ l a
      requireNumber σ r b
      return .name (← bind (.arithmetic op a b))
    match op with
    | .add => arithmetic .add
    | .mul => arithmetic .mul
    | .sub => arithmetic .sub
    | .listCons =>
      collect σ
      return .name (← bind (.cons a b))
    | .stringConcat =>
      collect σ
      requireString σ l a
      requireString σ r b
      return .name (← bind (.concat a b))
    | op => throw (.noOperation op)
  | .scope _ b (.assign _ x v) => do
    let value ← compile σ scope (some x) v
    compile σ (scope.set x value) none b
  | .scope _ _ _ => throw .bindingNotAssignment
  | .apply _ f a => do
    let callee ← compile σ scope none f
    let arg ← compile σ scope none a
    return .name (← bind (.apply callee arg))
  | .list _ items => do
    if ← areConstant items then constantList (← compileAll σ scope items)
    else
      let result ← newList (← compileAll σ scope items)
      collect σ
      return .name result
  | .record _ fields => do
    if ← areConstantFields fields then
      let values ← compileConstantFields σ scope fields
      newConstant "const_record" (.record values)
    else
      let values ← compileFields σ scope fields
      let keys := Term.sortedNames values.keys
      let builder ← recordBuilder σ keys
      return .name (← bind (.build builder (keys.map fun k => (values.get? k).getD .hole)))
  | .access _ o f => do
    match f with
    | .var _ k =>
      let record ← compile σ scope none o
      useKey k
      emit (.require (.record record))
      let value ← bind (.field record k)
      emit (.require (.present value k))
      return .name value
    | t => throw (.fieldNotAName t.qualifiedKind)
  | t@(.function _ p b) =>
    function σ scope name t (p.paramName?.getD "") fun own => do
      emit (.return (← compile σ own none b))
  | t@(.matchFunction _ cases) => do
    let arg ← newName "tmp"
    function σ scope name t arg fun own => do
      compileCases σ own arg 1 cases
      emit .noMatch
  | t => do
    match ((t.shown σ.heap).run.run []).1 with
    | .ok s => throw (.notCompilable t.qualifiedKind s)
    | .error e => throw (.printing e)

def compileAll (σ : Setting) (scope : Scope) : List Term → CompileM (List Operand)
  | [] => return []
  | t :: ts => do
    let x ← compile σ scope none t
    return x :: (← compileAll σ scope ts)

def compileFields (σ : Setting) (scope : Scope) : List (String × Term) → CompileM (Dict Operand)
  | [] => return []
  | (k, t) :: fs => do
    let x ← compile σ scope none t
    return (k, x) :: (← compileFields σ scope fs)

def compileConstantFields (σ : Setting) (scope : Scope) : List (String × Term) → CompileM (Dict Operand)
  | [] => return []
  | (k, t) :: fs => do
    useKey k
    let x ← compile σ scope none t
    return (k, x) :: (← compileConstantFields σ scope fs)

def compileCases (σ : Setting) (scope : Scope) (arg : String) (number : Nat) : List (Term × Term) → CompileM Unit
  | [] => return ()
  | (p, b) :: cs => do
    let target := if cs.isEmpty then Label.noMatch else .case number
    let names ← tryMatch σ arg target p
    let result ← compile σ (scope.merge names) none b
    emit (.return result)
    emit (.label target)
    compileCases σ scope arg (number + 1) cs

end

end Compile

open Compile in
def Term.compiled (σ : Setting) (t : Term) : Except CompileError Code.Program :=
  let main : CompileM Unit := do
    discard (openFunction { name := "scrap_main", params := [] })
    emit (.return (← compile σ [] none t))
  let (r, p) := main.run.run {}
  r.map fun _ => p.program

end Scrap
