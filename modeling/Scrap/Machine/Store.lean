import Scrap.Machine.Word

/-! # The store of a running program

Objects are allocated one after the other in one half of the space; when it is full, a space of twice the size takes
its place. A collection copies what the roots lead to into the other half: first the objects of the roots, then those
that the copies lead to, in order. Constant objects come before all others and never move. -/

namespace Scrap.Machine

/-- An object. A closure holds the name of its function and what it captured; the fields of a record have the numbers
of their keys. -/
inductive Object where
  | list (first rest : Word)
  | closure (func : String) (captured : List Word)
  | record (fields : List (Nat × Word))
  | string (bytes : List UInt8)
  | variant (tag : Nat) (value : Word)
deriving Repr, Inhabited

/-- The words that an object holds, in order. -/
def Object.words : Object → List Word
  | .list a b => [a, b]
  | .closure _ ws => ws
  | .record fields => fields.map Prod.snd
  | .string _ => []
  | .variant _ w => [w]

def Object.map (f : Word → Word) : Object → Object
  | .list a b => .list (f a) (f b)
  | .closure g ws => .closure g (ws.map f)
  | .record fields => .record (fields.map fun p => (p.1, f p.2))
  | .string bytes => .string bytes
  | .variant t w => .variant t (f w)

def aligned (unit n : Nat) : Nat := (n + unit - 1) / unit * unit

def Object.size : Object → Nat
  | .list _ _ => 24
  | .closure _ captured => 24 + 8 * captured.length
  | .record fields => 16 + 16 * fields.length
  | .string bytes => aligned 8 (16 + bytes.length)
  | .variant _ _ => 24

/-- The objects: the constant ones, and the others in the order of their allocation. `used` counts the bytes of the
latter; the space has `space` bytes in two halves. -/
structure Store where
  constants : Array Object := #[]
  objects : Array Object := #[]
  used : Nat := 0
  space : Nat := 4096
deriving Inhabited

namespace Store

def get? (s : Store) (w : Word) : Option Object :=
  if w.isPointer then
    if w.target < s.constants.size then s.constants[w.target]? else s.objects[w.target - s.constants.size]?
  else none

/-! ### Collection -/

/-- Whether a word points to an object that is not constant. -/
def Moves (s : Store) (w : Word) : Prop := w.isPointer = true ∧ s.constants.size ≤ w.target

instance (s : Store) (w : Word) : Decidable (s.Moves w) := inferInstanceAs (Decidable (_ ∧ _))

def index (s : Store) (w : Word) : Nat := w.target - s.constants.size

def object (s : Store) (i : Nat) : Object := s.objects.getD i default

/-- The places in `order`, and after them those of the objects that the words point to, each once. -/
def enlist (s : Store) (order : List Nat) : List Word → List Nat
  | [] => order
  | w :: ws =>
    let new := if s.Moves w ∧ s.index w < s.objects.size ∧ s.index w ∉ order then [s.index w] else []
    s.enlist (order ++ new) ws

/-- Goes through the places from a position on, those included that this adds. -/
def trace (s : Store) : Nat → Nat → List Nat → List Nat
  | 0, _, order => order
  | fuel + 1, p, order =>
    match order[p]? with
    | none => order
    | some i => s.trace fuel (p + 1) (s.enlist order (s.object i).words)

/-- The places of the objects that the roots lead to, in the order in which they are copied. -/
def copyOrder (s : Store) (roots : Array Word) : List Nat := s.trace (s.objects.size + 1) 0 (s.enlist [] roots.toList)

/-- The word after the objects in the places `order` have been copied, one after the other. -/
def forward (s : Store) (order : List Nat) (w : Word) : Word :=
  if s.Moves w ∧ s.index w ∈ order then Word.pointer (s.constants.size + order.idxOf (s.index w)) else w

def collect (s : Store) (roots : Array Word) : Array Word × Store :=
  let order := s.copyOrder roots
  let copies := order.map fun i => (s.object i).map (s.forward order)
  (roots.map (s.forward order),
    { s with objects := copies.toArray, used := copies.foldr (fun o n => o.size + n) 0 })

/-- The live objects move to a space of twice the size. -/
def grow (s : Store) (roots : Array Word) : Array Word × Store :=
  let (roots, copied) := s.collect roots
  (roots, { copied with space := 2 * s.space })

/-! ### Allocation -/

def free (s : Store) : Nat := s.space / 2 - s.used

def push (s : Store) (o : Object) : Word × Store :=
  (Word.pointer (s.constants.size + s.objects.size),
    { s with objects := s.objects.push o, used := s.used + o.size })

/-- Allocates an object. If the half is full, the live objects move to a space of twice the size; nothing is returned
if that is too small as well. -/
def allocate (s : Store) (roots : Array Word) (o : Object) : Option Word × Array Word × Store :=
  if o.size ≤ s.free then
    let (w, s) := s.push o
    (some w, roots, s)
  else
    let (roots, s) := s.grow roots
    if o.size ≤ s.free then
      let (w, s) := s.push o
      (some w, roots, s)
    else (none, roots, s)

def set (s : Store) (w : Word) (o : Object) : Store :=
  { s with objects := s.objects.setIfInBounds (w.target - s.constants.size) o }

end Store

end Scrap.Machine
