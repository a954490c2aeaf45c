import Scrap.Term.Basic

/-! # The heap

The heap hands out identities, keeps the environments of closures, and resolves the links of terms that contain
themselves. -/

namespace Scrap

/-- The heap: the next free identity, the environments of closures by number, and the terms that links stand for. -/
structure Heap where
  next : Nat := Term.firstFree
  envs : Array Env := #[]
  knots : List (Nat × Term) := []
deriving Inhabited

namespace Heap

def place (h : Heap) (t : Term) : Term × Heap :=
  let (t, next) := t.placeFrom h.next
  (t, { h with next })

def envOf (h : Heap) (e : Nat) : Env := h.envs.getD e []

def newClosure (h : Heap) (env : Env) (code : Term) : Term × Heap :=
  (.closure h.envs.size code, { h with envs := h.envs.push env })

def setEnv (h : Heap) (e : Nat) (env : Env) : Heap := { h with envs := h.envs.setIfInBounds e env }

def bind (h : Heap) (e : Nat) (name : String) (t : Term) : Heap := h.setEnv e ((h.envOf e).set name t)

def tie (h : Heap) (i : Nat) (t : Term) : Heap := { h with knots := (i, t) :: h.knots }

def resolve (h : Heap) : Term → Term
  | .link i => (List.lookup i h.knots).getD (.link i)
  | t => t

/-- More environments and links than a walk can enter before it comes back to one it is inside of. -/
def turns (h : Heap) : Nat := h.envs.size + h.knots.length + 2

/-- More environments and links than a walk can enter that enters each list and each closure once: what lies between
two of those is left after less than `turns` links, unless a record contains itself. -/
def rounds (h : Heap) : Nat := h.turns * (h.turns + h.next)

end Heap

end Scrap
