import Scrap.Machine.Store

/-! # Objects in memory

Memory has a word at each address; addresses count words of eight bytes. An object begins with its tag word: the number
of its bytes above the low byte, which tells its kind and is odd. Objects stand one behind the other from `base` to
`hp`, in one half of the space. A collection copies them to the other half, word by word; the tag word of an object that
has been copied gives way to the address of its copy, an even word. Nothing but the tag words says where an object ends
and which of its words are values. Constant objects stand below all others. -/

namespace Scrap.Machine

namespace Word

def tag (kind size : Nat) : Word := (UInt64.ofNat size <<< 8) ||| UInt64.ofNat kind

def kind (w : Word) : Nat := (w &&& 255).toNat

/-- The size of an object by its tag word, in words. -/
def extent (w : Word) : Nat := (w >>> 8).toNat / 8

/-- The word that takes the place of the tag word of an object that has been copied to an address. -/
def address (a : Nat) : Word := UInt64.ofNat (8 * a)

def isAddress (w : Word) : Bool := w &&& 1 = 0

end Word

/-- The halves of the space have `half` words each; constant objects end at `constants`. -/
structure Halves where
  constants : Nat
  half : Nat
  toSpace : Nat
  fromSpace : Nat
  base : Nat
  limit : Nat

structure Memory extends Halves where
  cell : Nat → Word
  hp : Nat

namespace Memory

def set (m : Memory) (a : Nat) (w : Word) : Memory := { m with cell := fun b => if b = a then w else m.cell b }

/-- Copies the object at an address behind the other copies. -/
def copy (m : Memory) (a : Nat) : Memory :=
  let size := (m.cell a).extent
  let copied := { m with cell := fun b => if m.hp ≤ b ∧ b < m.hp + size then m.cell (a + (b - m.hp)) else m.cell b }
  { copied.set a (.address m.hp) with hp := m.hp + size }

/-- The new word in place of a word, after what it points to has been copied. -/
def visit (m : Memory) (w : Word) : Word × Memory :=
  if !w.isPointer || w.target < m.constants then (w, m)
  else
    let tag := m.cell w.target
    if tag.isAddress then (.pointer tag.target, m) else (.pointer m.hp, m.copy w.target)

def visitCell (m : Memory) (a : Nat) : Memory :=
  let (w, m) := m.visit (m.cell a)
  m.set a w

def visitAll (m : Memory) : List Word → List Word × Memory
  | [] => ([], m)
  | w :: ws =>
    let (w, m) := m.visit w
    let (ws, m) := m.visitAll ws
    (w :: ws, m)

/-- Where the object at an address holds its values, unless its kind is unknown. -/
def valueCells (m : Memory) (a : Nat) : Option (List Nat) :=
  match (m.cell a).kind with
  | 1 => some [a + 1, a + 2]
  | 3 => some ((List.range (m.cell (a + 2)).toNat).map (a + 3 + ·))
  | 5 => some ((List.range (m.cell (a + 1)).toNat).map (a + 3 + 2 * ·))
  | 7 => some []
  | 9 => some [a + 2]
  | _ => none

/-- Goes through the copies from an address on, those included that this makes. -/
def scan : Nat → Nat → Memory → Option Memory
  | 0, _, _ => none
  | fuel + 1, a, m =>
    if a < m.hp then do
      let cells ← m.valueCells a
      scan fuel (a + (m.cell a).extent) (cells.foldl visitCell m)
    else some m

def flip (m : Memory) : Memory :=
  { m with base := m.fromSpace, hp := m.fromSpace, fromSpace := m.toSpace, toSpace := m.fromSpace,
           limit := m.fromSpace + m.half }

/-- The new roots and the memory after a collection. -/
def collect (m : Memory) (roots : List Word) : Option (List Word × Memory) := do
  let flipped := m.flip
  let (roots, visited) := flipped.visitAll roots
  return (roots, ← scan (m.half + 1) flipped.hp visited)

/-- Moves the live objects to a space of twice the size that begins at `start`. -/
def grow (m : Memory) (start : Nat) (roots : List Word) : Option (List Word × Memory) :=
  collect { m with half := 2 * m.half, toSpace := start, fromSpace := start + 2 * m.half, base := start, hp := start,
                   limit := start + 2 * m.half } roots

end Memory

end Scrap.Machine
