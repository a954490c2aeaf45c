import Scrap.Types.Basic

/-! # Unification

A field that a row lacks is added by binding the variable that the row ends in. The occurs check identifies a variable
by its name and binding, and does not look into what variables are bound to. -/

namespace Scrap

namespace TypeStore

def sameWithin (s : TypeStore) : Nat → Ty → Ty → Bool
  | 0, _, _ => true
  | fuel + 1, .var i, .var j =>
    s.nameOf i = s.nameOf j && match s.bound? i, s.bound? j with
      | none, none => true
      | some a, some b => sameWithin s fuel a b
      | _, _ => false
  | fuel + 1, .con m as, .con n bs =>
    m = n && as.length = bs.length && (as.zip bs).all fun (a, b) => sameWithin s fuel a b
  | fuel + 1, .row fs r, .row gs q =>
    fs.length = gs.length &&
      (fs.all fun (k, a) => match Dict.get? gs k with
        | some b => sameWithin s fuel a b
        | none => false) && sameWithin s fuel r q
  | _ + 1, .emptyRow, .emptyRow => true
  | _ + 1, .bare, .bare => true
  | _ + 1, _, _ => false

def same (s : TypeStore) (a b : Ty) : Bool := s.sameWithin (s.weight a + s.weight b) a b

mutual

/-- Whether a variable stands in a type, outside of what other variables are bound to. -/
def occurs (s : TypeStore) (v : Ty) : Ty → Except TypingError Bool
  | .var i => .ok (s.same v (.var i))
  | .con _ args => occursAny s v args
  | .emptyRow => .ok false
  | .row fields rest => do
    if ← occursField s v fields then return true
    occurs s v rest
  | .bare => .error (.unknownType "MonoType()")

def occursAny (s : TypeStore) (v : Ty) : List Ty → Except TypingError Bool
  | [] => .ok false
  | t :: ts => do
    if ← occurs s v t then return true
    occursAny s v ts

def occursField (s : TypeStore) (v : Ty) : List (String × Ty) → Except TypingError Bool
  | [] => .ok false
  | (_, t) :: fs => do
    if ← occurs s v t then return true
    occursField s v fs

end

end TypeStore

namespace TypeM

def bindVar (v t : Ty) : TypeM Unit := do
  if ← reading fun s => s.occurs v t then throw (.occurs (← text v) (← text t))
  makeEqual v t

def missing (here there : Dict Ty) : Dict Ty := TypeStore.inKeyOrder (there.filter fun p => !here.has p.1)

def unifyField (unify : Ty → Ty → TypeM Unit) (there : Dict Ty) (p : String × Ty) : TypeM Unit :=
  match there.get? p.1 with
  | some t => unify p.2 t
  | none => return ()

/-- Binds what two rows go on with, so that each of them gets the fields it lacks. -/
def closeRows (unify : Ty → Ty → TypeM Unit) (lackingLeft lackingRight : Dict Ty) (r q : Ty) : TypeM Unit :=
  match lackingLeft, lackingRight with
  | [], [] => unify r q
  | [], _ => do unify q (← row lackingRight r)
  | _, [] => do unify r (← row lackingLeft q)
  | _, _ => do
    let rest ← fresh
    unify r (← row lackingLeft rest)
    unify q (← row lackingRight rest)

/-- Unifies the fields that two rows share, in the order of their names, then gives each the fields it lacks. -/
def unifyRows (unify : Ty → Ty → TypeM Unit) (a b : Ty) : TypeM Unit := do
  let (fs, r) ← reading fun s => s.flatten a
  let (gs, q) ← reading fun s => s.flatten b
  (TypeStore.inKeyOrder fs).forM (unifyField unify gs)
  closeRows unify (missing fs gs) (missing gs fs) r q

def unifyFound (unify : Ty → Ty → TypeM Unit) (a b : Ty) : TypeM Unit := do
  match a, b with
  | .var _, _ => bindVar a b
  | _, .var _ => bindVar b a
  | .con m as, .con n bs =>
    if m = n && as.length = bs.length then (as.zip bs).forM fun (x, y) => unify x y
    else throw (.mismatch (← text a) (← text b))
  | .emptyRow, .emptyRow => return ()
  | .row _ _, .row _ _ => unifyRows unify a b
  | .row _ _, .emptyRow => throw (.rowWithEmpty (← text a))
  | .emptyRow, .row _ _ => throw (.emptyWithRow (← text b))
  | _, _ => throw (.unrelated (← text a) (← text b))

def unifyWithin : Nat → Ty → Ty → TypeM Unit
  | 0, _, _ => throw .outOfFuel
  | fuel + 1, a, b => do unifyFound (unifyWithin fuel) (← find a) (← find b)

def depth : Nat := 10000

def unify (a b : Ty) : TypeM Unit := unifyWithin depth a b

end TypeM

end Scrap
