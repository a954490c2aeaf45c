import Scrap.Wire.Encoder

/-! # Reading terms from bytes

A negative length moves the position backwards; a read past the end gives what is there. Lists and closures get numbers
in the order in which their contents start. -/

namespace Scrap

inductive DecodeError where
  | noByte
  | badText (cause : Text.Utf8Error)
  | cutFloat
  | noReference (index : Int)
  /-- The reference flag is set where it must not be, or missing where it must be. -/
  | badFlag
  | notCode
  | notAVariable
  | unknownOperator (symbol : String)
  | unknownTag (byte : UInt8)
  | outOfFuel
deriving DecidableEq, Repr

def DecodeError.message : DecodeError → String
  | .noByte => "index out of bounds on dimension 1"
  | .badText e => e.message
  | .cutFloat => "unpack requires a buffer of 8 bytes"
  | .noReference i =>
    if Wire.isShort i then "list index out of range" else "cannot fit 'int' into an index-sized integer"
  | .badFlag | .notCode | .notAVariable => ""
  | .unknownOperator s => Text.literal s
  | .unknownTag b => Text.bytesLiteral [b]
  | .outOfFuel => "out of fuel"

/-- The bytes, the position in them, the numbered lists and closures, and the heap that takes the result. -/
structure Decoder where
  data : Array UInt8
  index : Int := 0
  known : Array Term := #[]
  heap : Heap := {}
deriving Inhabited

/-- Reads terms; a failure keeps the position it was found at. -/
abbrev DecodeM := ExceptT DecodeError (StateM Decoder)

namespace Decoder

open Wire

/-- An index counted from the end if it is negative, within the bounds of `size` elements. -/
def clamp (size : Nat) (i : Int) : Nat :=
  let i := if i < 0 then i + size else i
  if i < 0 then 0 else min size i.toNat

def slice (data : Array UInt8) (start stop : Int) : List UInt8 :=
  (data.extract (clamp data.size start) (clamp data.size stop)).toList

def read (size : Int) : DecodeM (List UInt8) := do
  let d ← get
  set { d with index := d.index + size }
  return slice d.data d.index (d.index + size)

def readByte : DecodeM UInt8 := do
  match ← read 1 with
  | b :: _ => return b
  | [] => throw .noByte

def readVarint : Nat → DecodeM Nat
  | 0 => throw .noByte
  | fuel + 1 => do
    let b ← readByte
    let low := b.toNat % 128
    if b.toNat < 128 then return low else return low + 128 * (← readVarint fuel)

/-- The short form of an integer. The position grows with every byte, so there are no more bytes than it has still to
pass. -/
def readShort : DecodeM Int := do
  let d ← get
  return unzigzag (← readVarint (d.data.size + d.index.natAbs + 1))

def readDigits : Nat → DecodeM (List Nat)
  | 0 => return []
  | count + 1 => do
    let d ← read 8
    return ofLittleEndian d :: (← readDigits count)

def readLong : DecodeM Int := do
  let count ← readShort
  return unzigzag (Wire.ofDigits (← readDigits count.toNat))

def readString : DecodeM String := do
  let size ← readShort
  match Text.ofUtf8 (← read size) with
  | .ok s => return s
  | .error e => throw (.badText e)

def fresh : DecodeM Nat := do
  let d ← get
  set { d with heap := { d.heap with next := d.heap.next + 1 } }
  return d.heap.next

def register (t : Term) : DecodeM Nat := do
  let d ← get
  set { d with known := d.known.push t }
  return d.known.size

def reference (i : Int) : DecodeM Term := do
  let d ← get
  let j := if i < 0 then i + d.known.size else i
  match if j < 0 then none else d.known[j.toNat]? with
  | some t => return t
  | none => throw (.noReference i)

def flag (found wanted : Bool) : DecodeM Unit := if found = wanted then return () else throw .badFlag

def isCode : Term → Bool
  | .function _ _ _ => true
  | .matchFunction _ _ => true
  | _ => false

def repeated {α : Type} (one : DecodeM α) : Nat → DecodeM (List α)
  | 0 => return []
  | count + 1 => do
    let a ← one
    return a :: (← repeated one count)

def field (one : DecodeM Term) : DecodeM (String × Term) := do
  let k ← readString
  return (k, ← one)

def branch (one : DecodeM Term) : DecodeM (Term × Term) := do
  let p ← one
  return (p, ← one)

/-- Reads the environment of a closure after its code. The closure has its number before that. -/
def captured (one : DecodeM Term) (flagged : Bool) (code : Term) : DecodeM Term := do
  let count ← readShort
  if !isCode code then throw .notCode
  flag flagged true
  let d ← get
  let (c, heap) := d.heap.newClosure [] code
  set { d with heap }
  let _ ← register c
  let env ← repeated (field one) count.toNat
  modify fun d => { d with heap := d.heap.setEnv c.id (Dict.ofEntries env) }
  return c

/-- Reads the rest of a term after its tag, the terms in it by `one`. -/
def node (one : DecodeM Term) (flagged : Bool) : Tag → DecodeM Term
  | .reference => do reference (← readShort)
  | .list => do
    let count ← readShort
    flag flagged true
    let i ← fresh
    let n ← register (.link i)
    let items ← repeated one count.toNat
    let t := Term.list i items
    modify fun d => { d with known := d.known.setIfInBounds n t, heap := d.heap.tie i t }
    return t
  | .closure => do captured one flagged (← one)
  | .spread => do return .spread (← fresh) none
  | .namedSpread => do return .spread (← fresh) (some (← readString))
  | .short => do flag flagged false; return .int (← fresh) (← readShort)
  | .long => do flag flagged false; return .int (← fresh) (← readLong)
  | .string => do flag flagged false; return .string (← fresh) (← readString)
  | .record => do
    flag flagged false
    let count ← readShort
    let entries ← repeated (field one) count.toNat
    return .record (← fresh) (Dict.ofEntries entries)
  | .variant => do
    flag flagged false
    let t ← readString
    return .variant (← fresh) t (← one)
  | .var => do flag flagged false; return .var (← fresh) (← readString)
  | .function => do
    flag flagged false
    let p ← one
    return .function (← fresh) p (← one)
  | .matchFunction => do
    flag flagged false
    let count ← readShort
    let cases ← repeated (branch one) count.toNat
    return .matchFunction (← fresh) cases
  | .bytes => do
    flag flagged false
    let size ← readShort
    return .bytes (← fresh) (← read size)
  | .float => do
    flag flagged false
    let bs ← read 8
    if bs.length = 8 then return .float (← fresh) ⟨UInt64.ofNat (ofLittleEndian bs)⟩ else throw .cutFloat
  | .hole => do flag flagged false; return .hole (← fresh)
  | .assign => do
    flag flagged false
    let name ← one
    let value ← one
    match name with
    | .var _ x => return .assign (← fresh) x value
    | _ => throw .notAVariable
  | .binop => do
    flag flagged false
    let s ← readString
    match BinaryOp.ofSymbol? s with
    | none => throw (.unknownOperator s)
    | some op =>
      let l ← one
      return .binop (← fresh) op l (← one)
  | .apply => do
    flag flagged false
    let f ← one
    return .apply (← fresh) f (← one)
  | .scope => do
    flag flagged false
    let t ← one
    return .scope (← fresh) t (← one)
  | .access => do
    flag flagged false
    let o ← one
    return .access (← fresh) o (← one)

def decode : Nat → DecodeM Term
  | 0 => throw .outOfFuel
  | fuel + 1 => do
    let b ← readByte
    match Tag.ofByte? (b &&& 0x7f) with
    | none => throw (.unknownTag (b &&& 0x7f))
    | some tag => node (decode fuel) (128 ≤ b.toNat) tag

/-- How many levels of terms are read beyond those that have a byte of their own: a negative length can lead back to
bytes that were read before. -/
def depth : Nat := 100000

end Decoder

def Decoder.parse (d : Decoder) : Except DecodeError Term × Decoder :=
  (Decoder.decode (Decoder.depth + d.data.size)).run.run d

end Scrap
