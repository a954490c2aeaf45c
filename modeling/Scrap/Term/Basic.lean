import Scrap.Operator
import Scrap.Number.Complex

/-! # Terms

Programs and values are terms of one kind. Every term has an identity, a number that stays with it, so that two
occurrences can be one object; terms fresh from the reader have the number zero until they are placed in a heap. A
closure is its code with the number of its environment. A list, a record or a closure that contains itself holds a
*link*, which the heap resolves. -/

namespace Scrap

inductive Native where
  | fetch | jsonDecode | serialize | deserialize | listLength
deriving DecidableEq, Repr, Inhabited

namespace Native

def all : List Native := [.fetch, .jsonDecode, .serialize, .deserialize, .listLength]

def name : Native → String
  | .fetch => "$$fetch"
  | .jsonDecode => "$$jsondecode"
  | .serialize => "$$serialize"
  | .deserialize => "$$deserialize"
  | .listLength => "$$listlength"

def ofName? (s : String) : Option Native := all.find? fun f => f.name = s

end Native

/-- A program or a value. The first field of every form is its identity; for a closure it is the number of its
environment. -/
inductive Term where
  | int (id : Nat) (value : Int)
  /-- A truth value read from outside data: it counts as one or zero and is written as a word. -/
  | truth (id : Nat) (value : Bool)
  | float (id : Nat) (value : Binary64)
  /-- A complex number, which is a floating-point number to every check of kinds. -/
  | complex (id : Nat) (value : Complex)
  | string (id : Nat) (value : String)
  | bytes (id : Nat) (value : List UInt8)
  | var (id : Nat) (name : String)
  | hole (id : Nat)
  /-- The rest of a list or record in a pattern, with or without a name. -/
  | spread (id : Nat) (name : Option String)
  | binop (id : Nat) (op : BinaryOp) (left right : Term)
  | list (id : Nat) (items : List Term)
  | record (id : Nat) (fields : List (String × Term))
  | assign (id : Nat) (name : String) (value : Term)
  | function (id : Nat) (param body : Term)
  | apply (id : Nat) (func arg : Term)
  | scope (id : Nat) (body binding : Term)
  | assert (id : Nat) (value condition : Term)
  | matchCase (id : Nat) (pattern body : Term)
  | matchFunction (id : Nat) (cases : List (Term × Term))
  | access (id : Nat) (object field : Term)
  | variant (id : Nat) (tag : String) (value : Term)
  /-- An environment as a value, which is what a definition evaluates to. -/
  | environment (id : Nat) (bindings : List (String × Term))
  /-- A name to be replaced when a program is loaded; `native` ones name a built-in function. -/
  | relocation (id : Nat) (native : Bool) (name : String)
  | native (id : Nat) (func : Native)
  | closure (env : Nat) (code : Term)
  /-- The list, record or closure that the heap keeps under this number. -/
  | link (id : Nat)
deriving Repr, Inhabited

abbrev Env := Dict Term

namespace Term

def id : Term → Nat
  | .int i _ | .truth i _ | .float i _ | .complex i _ | .string i _ | .bytes i _ | .var i _ | .hole i
  | .spread i _ | .binop i _ _ _ | .list i _ | .record i _ | .assign i _ _ | .function i _ _ | .apply i _ _
  | .scope i _ _ | .assert i _ _ | .matchCase i _ _ | .matchFunction i _ | .access i _ _ | .variant i _ _
  | .environment i _ | .relocation i _ _ | .native i _ | .closure i _ | .link i => i

def kind : Term → String
  | .int _ _ | .truth _ _ => "Int"
  | .float _ _ | .complex _ _ => "Float"
  | .string _ _ => "String"
  | .bytes _ _ => "Bytes"
  | .var _ _ => "Var"
  | .hole _ => "Hole"
  | .spread _ _ => "Spread"
  | .binop _ _ _ _ => "Binop"
  | .list _ _ => "List"
  | .record _ _ => "Record"
  | .assign _ _ _ => "Assign"
  | .function _ _ _ => "Function"
  | .apply _ _ _ => "Apply"
  | .scope _ _ _ => "Where"
  | .assert _ _ _ => "Assert"
  | .matchCase _ _ _ => "MatchCase"
  | .matchFunction _ _ => "MatchFunction"
  | .access _ _ _ => "Access"
  | .variant _ _ _ => "Variant"
  | .environment _ _ => "EnvObject"
  | .relocation _ isNative _ => if isNative then "NativeFunctionRelocation" else "Relocation"
  | .native _ _ => "NativeFunction"
  | .closure _ _ => "Closure"
  | .link _ => "List"

def qualifiedKind (t : Term) : String := "<class 'scrapscript." ++ t.kind ++ "'>"

def int? : Term → Option Int
  | .int _ n => some n
  | .truth _ b => some (if b then 1 else 0)
  | _ => none

/-- Whether two terms are one object. Terms that were not placed are never one object. -/
def same (a b : Term) : Bool :=
  match a, b with
  | .closure i _, .closure j _ => i = j
  | .closure _ _, _ => false
  | _, .closure _ _ => false
  | _, _ => a.id = b.id && a.id ≠ 0

/-- The truth values of the language, which are the same two objects everywhere. -/
def bool (b : Bool) : Term :=
  if b then .variant 1 "true" (.hole 2) else .variant 3 "false" (.hole 4)

def firstFree : Nat := 5

/-! ### Giving terms an identity -/

mutual

/-- Numbers a term and everything in it from `next` on, and returns the next free number. Closures and links keep
the numbers they have. -/
def placeFrom (next : Nat) : Term → Term × Nat
  | .int _ n => (.int next n, next + 1)
  | .truth _ b => (.truth next b, next + 1)
  | .float _ x => (.float next x, next + 1)
  | .complex _ z => (.complex next z, next + 1)
  | .string _ s => (.string next s, next + 1)
  | .bytes _ bs => (.bytes next bs, next + 1)
  | .var _ x => (.var next x, next + 1)
  | .hole _ => (.hole next, next + 1)
  | .spread _ x => (.spread next x, next + 1)
  | .binop _ op l r =>
    let (l, n) := placeFrom (next + 1) l
    let (r, n) := placeFrom n r
    (.binop next op l r, n)
  | .list _ items =>
    let (items, n) := placeAll (next + 1) items
    (.list next items, n)
  | .record _ fields =>
    let (fields, n) := placeFields (next + 1) fields
    (.record next fields, n)
  | .assign _ x v =>
    let (v, n) := placeFrom (next + 1) v
    (.assign next x v, n)
  | .function _ p b =>
    let (p, n) := placeFrom (next + 1) p
    let (b, n) := placeFrom n b
    (.function next p b, n)
  | .apply _ f a =>
    let (f, n) := placeFrom (next + 1) f
    let (a, n) := placeFrom n a
    (.apply next f a, n)
  | .scope _ b d =>
    let (b, n) := placeFrom (next + 1) b
    let (d, n) := placeFrom n d
    (.scope next b d, n)
  | .assert _ v c =>
    let (v, n) := placeFrom (next + 1) v
    let (c, n) := placeFrom n c
    (.assert next v c, n)
  | .matchCase _ p b =>
    let (p, n) := placeFrom (next + 1) p
    let (b, n) := placeFrom n b
    (.matchCase next p b, n)
  | .matchFunction _ cases =>
    let (cases, n) := placeCases (next + 1) cases
    (.matchFunction next cases, n)
  | .access _ o f =>
    let (o, n) := placeFrom (next + 1) o
    let (f, n) := placeFrom n f
    (.access next o f, n)
  | .variant _ t v =>
    let (v, n) := placeFrom (next + 1) v
    (.variant next t v, n)
  | .environment _ bs =>
    let (bs, n) := placeFields (next + 1) bs
    (.environment next bs, n)
  | .relocation _ nat x => (.relocation next nat x, next + 1)
  | .native _ f => (.native next f, next + 1)
  | .closure e code =>
    let (code, n) := placeFrom next code
    (.closure e code, n)
  | .link i => (.link i, next)

def placeAll (next : Nat) : List Term → List Term × Nat
  | [] => ([], next)
  | t :: ts =>
    let (t, n) := placeFrom next t
    let (ts, n) := placeAll n ts
    (t :: ts, n)

def placeFields (next : Nat) : List (String × Term) → List (String × Term) × Nat
  | [] => ([], next)
  | (k, t) :: ts =>
    let (t, n) := placeFrom next t
    let (ts, n) := placeFields n ts
    ((k, t) :: ts, n)

def placeCases (next : Nat) : List (Term × Term) → List (Term × Term) × Nat
  | [] => ([], next)
  | (p, b) :: cs =>
    let (p, n) := placeFrom next p
    let (b, n) := placeFrom n b
    let (cs, n) := placeCases n cs
    ((p, b) :: cs, n)

end

end Term

end Scrap
