import Scrap.Heap
import Scrap.Text.Utf8
import Scrap.Wire.Integer

/-! # Writing terms as bytes

A term is written as a tag and its parts. Lists and closures get numbers in the order in which they are first met, and
each later occurrence is written as a reference, so sharing and cycles through them survive. -/

namespace Scrap

namespace Wire

inductive Tag where
  | short | long | float | string | reference | list | record | variant | var | function | matchFunction
  | closure | bytes | hole | assign | binop | apply | scope | access | spread | namedSpread
deriving DecidableEq, Repr

namespace Tag

def all : List Tag :=
  [.short, .long, .float, .string, .reference, .list, .record, .variant, .var, .function, .matchFunction, .closure,
   .bytes, .hole, .assign, .binop, .apply, .scope, .access, .spread, .namedSpread]

def char : Tag → Char
  | .short => 'i'
  | .long => 'l'
  | .float => 'd'
  | .string => 's'
  | .reference => 'r'
  | .list => '['
  | .record => '\x7b'
  | .variant => '#'
  | .var => 'v'
  | .function => 'f'
  | .matchFunction => 'm'
  | .closure => 'c'
  | .bytes => 'b'
  | .hole => '('
  | .assign => '='
  | .binop => '+'
  | .apply => ' '
  | .scope => '.'
  | .access => '@'
  | .spread => 'S'
  | .namedSpread => 'R'

def byte (t : Tag) : UInt8 := UInt8.ofNat t.char.toNat

def flagged (t : Tag) : UInt8 := t.byte ||| 0x80

def ofByte? (b : UInt8) : Option Tag := all.find? fun t => t.byte = b

end Tag

/-- When a closure gets its number: before its code is written or after it. In the second order a closure that its
own code contains cannot be written. -/
inductive Order where
  | beforeCode | afterCode
deriving DecidableEq, Repr

def string (s : String) : List UInt8 :=
  let bs := Text.utf8 s
  short bs.length ++ bs

end Wire

inductive EncodeError where
  | noSymbol (op : BinaryOp)
  | notANumber
  | noTag (kind : String)
deriving DecidableEq, Repr

def EncodeError.message : EncodeError → String
  | .noSymbol op => op.description
  | .notANumber => "required argument is not a float"
  | .noTag kind => kind

/-- The lists and closures met so far, in order, and the bytes written. -/
structure Encoder where
  known : List Term := []
  output : Array UInt8 := #[]
deriving Inhabited

/-- Writes terms; a failure keeps what was written before it. -/
abbrev EncodeM := ExceptT EncodeError (StateM Encoder)

namespace Encoder

open Wire

def emit (bs : List UInt8) : EncodeM Unit := modify fun e => { e with output := e.output ++ bs }

def tag (t : Tag) : EncodeM Unit := emit [t.byte]

def number? (t : Term) : EncodeM (Option Nat) := return (← get).known.findIdx? t.same

def register (t : Term) : EncodeM Unit := modify fun e => { e with known := e.known ++ [t] }

def registerNew (t : Term) : EncodeM Unit := do
  match ← number? t with
  | some _ => throw (.noTag t.qualifiedKind)
  | none => register t

/-- Writes the tag and the rest of a term that gets a number, or the reference to it. -/
def shared (t : Tag) (term : Term) (body : EncodeM Unit) : EncodeM Unit := do
  match ← number? term with
  | some n =>
    tag .reference
    emit (short n)
  | none =>
    emit [t.flagged]
    body

mutual

/-- Writes a term; what lies behind links and in environments of closures is written by `far`. -/
def encodeWith (order : Order) (h : Heap) (far : Term → EncodeM Unit) : Term → EncodeM Unit
  | .int _ n => integer n
  | .truth _ b => integer (if b then 1 else 0)
  | .string _ s => do tag .string; emit (string s)
  | .list i items => shared .list (.list i items) do
    register (.list i items)
    emit (short items.length)
    encodeAll order h far items
  | .variant _ t v => do
    tag .variant
    emit (string t)
    encodeWith order h far v
  | .record _ fields => do
    tag .record
    emit (short fields.length)
    encodeFields order h far fields
  | .var _ x => do tag .var; emit (string x)
  | .function _ p b => do
    tag .function
    encodeWith order h far p
    encodeWith order h far b
  | .matchFunction _ cases => do
    tag .matchFunction
    emit (short cases.length)
    encodeCases order h far cases
  | .closure e code => shared .closure (.closure e code) do
    if order = .beforeCode then register (.closure e code)
    encodeWith order h far code
    if order = .afterCode then registerNew (.closure e code)
    let env := h.envOf e
    emit (short env.length)
    env.forM fun (k, v) => do
      emit (string k)
      far v
  | .bytes _ bs => do
    tag .bytes
    emit (short bs.length)
    emit bs
  | .float _ x => do tag .float; emit (littleEndian 8 x.bits.toNat)
  | .complex _ _ => do tag .float; throw .notANumber
  | .hole _ => tag .hole
  | .assign _ x v => do
    tag .assign
    tag .var
    emit (string x)
    encodeWith order h far v
  | .binop _ op l r => do
    tag .binop
    match op.symbol? with
    | none => throw (.noSymbol op)
    | some s =>
      emit (string s)
      encodeWith order h far l
      encodeWith order h far r
  | .apply _ f a => do
    tag .apply
    encodeWith order h far f
    encodeWith order h far a
  | .scope _ b d => do
    tag .scope
    encodeWith order h far b
    encodeWith order h far d
  | .access _ o f => do
    tag .access
    encodeWith order h far o
    encodeWith order h far f
  | .spread _ x =>
    match x with
    | some x => do tag .namedSpread; emit (string x)
    | none => tag .spread
  | .link i => far (h.resolve (.link i))
  | .assert i v c => throw (.noTag (Term.qualifiedKind (.assert i v c)))
  | .matchCase i p b => throw (.noTag (Term.qualifiedKind (.matchCase i p b)))
  | .environment i bs => throw (.noTag (Term.qualifiedKind (.environment i bs)))
  | .relocation i n x => throw (.noTag (Term.qualifiedKind (.relocation i n x)))
  | .native i f => throw (.noTag (Term.qualifiedKind (.native i f)))
where
  integer (n : Int) : EncodeM Unit :=
    if isShort n then do tag .short; emit (short n) else do tag .long; emit (long n)

def encodeAll (order : Order) (h : Heap) (far : Term → EncodeM Unit) : List Term → EncodeM Unit
  | [] => return ()
  | t :: ts => do
    encodeWith order h far t
    encodeAll order h far ts

def encodeFields (order : Order) (h : Heap) (far : Term → EncodeM Unit) : List (String × Term) → EncodeM Unit
  | [] => return ()
  | (k, t) :: ts => do
    emit (string k)
    encodeWith order h far t
    encodeFields order h far ts

def encodeCases (order : Order) (h : Heap) (far : Term → EncodeM Unit) : List (Term × Term) → EncodeM Unit
  | [] => return ()
  | (p, b) :: cs => do
    encodeWith order h far p
    encodeWith order h far b
    encodeCases order h far cs

end

def encodeWithin (order : Order) (h : Heap) : Nat → Term → EncodeM Unit
  | 0, t => throw (.noTag t.qualifiedKind)
  | turns + 1, t => encodeWith order h (encodeWithin order h turns) t

end Encoder

/-- Writes a term, with the numbers of closures given in the stated order. Each list and each closure is entered
once, since it has a number then; only a record that contains itself has no end. -/
def Term.encodeIn (order : Wire.Order) (h : Heap) (t : Term) : EncodeM Unit := Encoder.encodeWithin order h h.rounds t

def Term.encode (h : Heap) (t : Term) : EncodeM Unit := t.encodeIn .beforeCode h

def Term.serializedIn (order : Wire.Order) (h : Heap) (t : Term) : Except EncodeError (List UInt8) :=
  match (t.encodeIn order h).run.run {} with
  | (.ok (), e) => .ok e.output.toList
  | (.error e, _) => .error e

def Term.serialized (h : Heap) (t : Term) : Except EncodeError (List UInt8) := t.serializedIn .beforeCode h

end Scrap
