import Scrap.Code.Text
import Scrap.Dict
import Scrap.Machine.Store

/-! # Running code

A call puts its parameters on the stack and its local variables as they are set, and takes all of them off when it
returns. The stack is what a collection starts from. -/

namespace Scrap.Machine

open Code

inductive Stop where
  | violated
  /-- The program gives up and says why, as a C string. -/
  | report (message : String)
  | crashed
  | outOfFuel
deriving DecidableEq, Repr

structure State where
  store : Store := {}
  stack : Array Word := #[]
deriving Inhabited

abbrev RunM := ExceptT Stop (StateM State)

def ensure (b : Bool) : RunM Unit := if b then return () else throw .violated

def stackSize : Nat := 4096

def push (w : Word) : RunM Unit := do
  ensure ((← get).stack.size < stackSize)
  modify fun s => { s with stack := s.stack.push w }

def get? (w : Word) : RunM (Option Object) := return (← get).store.get? w

def allocate (o : Object) : RunM Word := do
  let r ← modifyGet fun (s : State) =>
    let (r, stack, store) := s.store.allocate s.stack o
    (r, { store, stack })
  match r with
  | some w => return w
  | none => throw (.report "out of memory")

def replace (w : Word) (o : Object) : RunM Unit := modify fun s => { s with store := s.store.set w o }

def collect : RunM Unit := modify fun s =>
  let (stack, store) := s.store.collect s.stack
  { store, stack }

/-! ### Values -/

def isList (w : Word) : RunM Bool := do
  if w = Word.emptyList then return true
  match ← get? w with
  | some (.list _ _) => return true
  | _ => return false

def listParts (w : Word) : RunM (Word × Word) := do
  match ← get? w with
  | some (.list a b) => return (a, b)
  | _ => throw .violated

def closureParts (w : Word) : RunM (String × List Word) := do
  match ← get? w with
  | some (.closure f ws) => return (f, ws)
  | _ => throw .violated

def isRecord (w : Word) : RunM Bool := do
  match ← get? w with
  | some (.record _) => return true
  | _ => return false

def recordFields (w : Word) : RunM (List (Nat × Word)) := do
  match ← get? w with
  | some (.record fields) => return fields
  | _ => throw .violated

def isString (w : Word) : RunM Bool := do
  if w.isShortString then return true
  match ← get? w with
  | some (.string _) => return true
  | _ => return false

def stringBytes (w : Word) : RunM (List UInt8) := do
  if w.isShortString then return w.shortBytes
  match ← get? w with
  | some (.string bytes) => return bytes
  | _ => throw .violated

def isVariant (w : Word) : RunM Bool := do
  if w.isVariant then return true
  match ← get? w with
  | some (.variant _ _) => return true
  | _ => return false

def variantParts (w : Word) : RunM (Nat × Word) := do
  if w.isVariant then return (w.variantTag, Word.hole)
  match ← get? w with
  | some (.variant t v) => return (t, v)
  | _ => throw .violated

/-! ### Operations -/

def number (w : Word) : RunM Int := do
  ensure w.isInt
  return w.intValue

def ofNumber (n : Int) : RunM Word := do
  ensure (Word.fits n)
  return Word.int n

/-- Arithmetic modulo 2^64, whose result must fit into 63 bits. -/
def arithmetic (op : Operation) (a b : Word) : RunM Word := do
  let x ← number a
  let y ← number b
  let n := match op with
    | .add => x + y
    | .sub => x - y
    | .mul => x * y
  ofNumber (Word.ofInt n).toInt

/-- Allocates with more words on the stack, which a collection may change. -/
def allocateWith (words : List Word) (make : List Word → Object) : RunM Word := do
  let base := (← get).stack.size
  words.forM push
  let w ← allocate (make words)
  let moved := ((← get).stack.extract base (base + words.length)).toList
  replace w (make moved)
  modify fun s => { s with stack := s.stack.shrink base }
  return w

def cons (a b : Word) : RunM Word :=
  allocateWith [a, b] fun
    | [a, b] => .list a b
    | _ => .list Word.emptyList Word.emptyList

def concat (a b : Word) : RunM Word := do
  if a = Word.shortString [] then return b
  if b = Word.shortString [] then return a
  let x ← stringBytes a
  let y ← stringBytes b
  if x.length + y.length ≤ 7 then
    ensure (a.isShortString && b.isShortString)
    return Word.shortString (x ++ y)
  allocateWith [a, b] fun _ => .string (x ++ y)

def field (w : Word) (key : Nat) : RunM Word := return (List.lookup key (← recordFields w)).getD 0

/-! ### Functions -/

/-- A program that can run: its code, the numbers of its constants, and the constant objects. -/
structure Image where
  program : Program
  constants : List (String × Nat) := []
  objects : Array Object := #[]
deriving Inhabited

namespace Image

def key (m : Image) (k : String) : Nat := m.program.keys.idxOf k

def tag (m : Image) (t : String) : Nat := m.program.tags.idxOf t

def literal : Literal → Word
  | .int n => Word.int n
  | .truth b => Word.int (if b then 1 else 0)

def word (m : Image) : Operand → Word
  | .name _ => 0
  | .hole => Word.hole
  | .int v => literal v
  | .emptyList => Word.emptyList
  | .shortString s => Word.shortString (Text.utf8 s)
  | .tag t => Word.variant (m.tag t)
  | .constant c => Word.pointer ((List.lookup c m.constants).getD 0)

/-- The bytes that a string literal of `n` characters shows: it is cut after as many bytes as it has characters. -/
def stringBytes (s : String) : List UInt8 := (Text.utf8 s).take s.length

def object (m : Image) : Constant → Object
  | .list a b => .list (m.word a) (m.word b)
  | .string s => .string (stringBytes s)
  | .variant t v => .variant (m.tag t) (m.word v)
  | .record fields => .record (fields.map fun (k, v) => (m.key k, m.word v))
  | .closure f => .closure f []

def ofProgram (program : Program) : Image :=
  program.constants.foldl (fun m (name, c) =>
    { m with constants := (name, m.objects.size) :: m.constants, objects := m.objects.push (m.object c) })
    { program }

end Image

abbrev Frame := Dict Nat

def variableOf (frame : Frame) (x : String) : RunM Word := do
  match frame.get? x with
  | some i => return (← get).stack.getD i 0
  | none => throw .crashed

def operand (m : Image) (frame : Frame) (o : Operand) : RunM Word :=
  match o with
  | .name x => variableOf frame x
  | o => return m.word o

def hidesStore (frame : Frame) : Bool := frame.has "heap"

def allocateIn (frame : Frame) (o : Object) : RunM Word := if hidesStore frame then throw .crashed else allocate o

abbrev Caller := String → List Word → RunM Word

def result (m : Image) (call : Caller) (frame : Frame) (c : Call) : RunM Word := do
  let var := variableOf frame
  let op := operand m frame
  match c with
  | .captured _ i =>
    let (_, ws) ← closureParts (← var "this")
    match ws[i]? with
    | some w => return w
    | none => throw .violated
  | .payload x => return (← variantParts (← var x)).2
  | .first x => return (← listParts (← var x)).1
  | .rest x => return (← listParts (← var x)).2
  | .field r k => field (← op r) (m.key k)
  | .newRecord n => allocateIn frame (.record (List.replicate n (0, 0)))
  | .newClosure f n => allocateIn frame (.closure f (List.replicate n 0))
  | .newVariant t => allocateIn frame (.variant (m.tag t) 0)
  | .emptyList => return Word.emptyList
  | .arithmetic o a b =>
    let a ← op a
    arithmetic o a (← op b)
  | .cons a b =>
    let a ← op a
    cons a (← op b)
  | .concat a b =>
    let a ← op a
    concat a (← op b)
  | .apply f a =>
    let f ← op f
    let a ← op a
    let (name, _) ← closureParts f
    call name [f, a]
  | .build b args => call b (← args.mapM op)

def fails (m : Image) (frame : Frame) (t : Test) : RunM Bool := do
  let var := variableOf frame
  match t with
  | .notInt x v =>
    let w ← var x
    ensure (Word.fits (match v with
      | .int n => (Word.ofInt n).toInt
      | .truth b => if b then 1 else 0))
    return w ≠ Image.literal v
  | .notHole x => return (← var x) ≠ Word.hole
  | .notTag x t => return (← var x) ≠ Word.variant (m.tag t)
  | .notVariant x => return !(← isVariant (← var x))
  | .otherTag x t => return (← variantParts (← var x)).1 ≠ m.tag t
  | .notShortString x s => return (← var x) ≠ Word.shortPattern (Image.stringBytes s)
  | .notString x => return !(← isString (← var x))
  | .otherString x s => return (← stringBytes (← var x)) ≠ Image.stringBytes s
  | .notList x => return !(← isList (← var x))
  | .empty x => return (← var x) = Word.emptyList
  | .notEmpty x => return (← var x) ≠ Word.emptyList
  | .notRecord x => return !(← isRecord (← var x))
  | .absent x => return (← var x) = 0
  | .otherSize x n => return (← recordFields (← var x)).length ≠ n

def met (m : Image) (frame : Frame) (r : Requirement) : RunM Bool := do
  let op := operand m frame
  match r with
  | .number o => return (← op o).isInt
  | .string o => isString (← op o)
  | .record o => isRecord (← op o)
  | .present x _ => return (← variableOf frame x) ≠ 0

def setLocal (frame : Frame) (x : String) (w : Word) : RunM Frame := do
  let i := (← get).stack.size
  push w
  return frame.set x i

/-- Runs statements; `skip` is the label that a jump is on its way to. -/
def exec (m : Image) (call : Caller) (args : Dict Word) (frame : Frame) (skip : Option Label) :
    List Statement → RunM Word
  | [] => throw .crashed
  | s :: rest => do
    match skip with
    | some l => exec m call args frame (if s = .label l then none else some l) rest
    | none =>
      match s with
      | .enter => exec m call args frame none rest
      | .protect x => exec m call args (← setLocal frame x ((args.get? x).getD 0)) none rest
      | .bind x c =>
        let w ← result m call frame c
        exec m call args (← setLocal frame x w) none rest
      | .setField r i k v =>
        let w ← variableOf frame r
        let value ← variableOf frame v
        replace w (.record ((← recordFields w).set i (m.key k, value)))
        exec m call args frame none rest
      | .setCaptured c _ i v =>
        let w ← variableOf frame c
        let value ← operand m frame v
        let (f, ws) ← closureParts w
        replace w (.closure f (ws.set i value))
        exec m call args frame none rest
      | .setPayload x v =>
        let w ← variableOf frame x
        let value ← operand m frame v
        replace w (.variant (← variantParts w).1 value)
        exec m call args frame none rest
      | .collect =>
        if hidesStore frame then throw .crashed
        collect
        exec m call args frame none rest
      | .require r =>
        if ← met m frame r then exec m call args frame none rest else throw (.report r.message)
      | .jumpIf t l =>
        if ← fails m frame t then exec m call args frame (some l) rest else exec m call args frame none rest
      | .return v => operand m frame v
      | .label _ => exec m call args frame none rest
      | .noMatch => throw (.report "no matching cases")

def callWithin (m : Image) : Nat → Caller
  | 0, _, _ => throw .outOfFuel
  | fuel + 1, name, args => do
    match m.program.functions.find? (·.name = name) with
    | none => throw .crashed
    | some f =>
      let base := (← get).stack.size
      let w ← exec m (callWithin m fuel) (f.params.zip args) [] none f.body.toList
      modify fun s => { s with stack := s.stack.shrink base }
      return w

/-- The result of a program: no more calls can be open than words fit on the stack. -/
def start (m : Image) : RunM Word := do
  let w ← callWithin m (stackSize + 2) "scrap_main" []
  push w
  return w

end Scrap.Machine
