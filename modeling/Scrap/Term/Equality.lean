import Scrap.Heap

/-! # Equality of terms

Two terms are equal if they are one object, or of one form with equal parts. Records and environments are compared as
maps, floating-point numbers as numbers. Terms that contain themselves are equal if no walk through both finds a
difference. -/

namespace Scrap.Term

def equalNumbers : Term → Term → Bool
  | .float _ x, .float _ y => x.eq y
  | .float _ x, .complex _ w => (Complex.ofReal x).eq w
  | .complex _ z, .float _ y => z.eq (Complex.ofReal y)
  | .complex _ z, .complex _ w => z.eq w
  | _, _ => false

def equalMaps (eq : Term → Term → Bool) (d e : Dict Term) : Bool :=
  d.length = e.length && d.all fun (k, v) =>
    match e.get? k with
    | some w => eq v w
    | none => false

mutual

/-- Compares two terms; environments of closures are compared by `envs`, what lies behind links by `far`. -/
def equalWith (h : Heap) (envs : Nat → Nat → Bool) (far : Term → Term → Bool) : Term → Term → Bool
  | .int i m, b => same (.int i m) b || b.int? = some m
  | .truth i m, b => same (.truth i m) b || b.int? = some (if m then 1 else 0)
  | .float i x, b => same (.float i x) b || equalNumbers (.float i x) b
  | .complex i z, b => same (.complex i z) b || equalNumbers (.complex i z) b
  | .string _ s, b =>
    match b with
    | .string _ t => s = t
    | _ => false
  | .bytes _ s, b =>
    match b with
    | .bytes _ t => s = t
    | _ => false
  | .var _ x, b =>
    match b with
    | .var _ y => x = y
    | _ => false
  | .hole _, b =>
    match b with
    | .hole _ => true
    | _ => false
  | .spread _ x, b =>
    match b with
    | .spread _ y => x = y
    | _ => false
  | .binop i op l r, b =>
    same (.binop i op l r) b ||
      match b with
      | .binop _ op' l' r' => op = op' && equalWith h envs far l l' && equalWith h envs far r r'
      | _ => false
  | .list i xs, b =>
    same (.list i xs) b ||
      match b with
      | .list _ ys => equalAll h envs far xs ys
      | .link j => far (.list i xs) (h.resolve (.link j))
      | _ => false
  | .record i fs, b =>
    same (.record i fs) b ||
      match b with
      | .record _ gs => fs.length = gs.length && equalFields h envs far fs gs
      | .link j => far (.record i fs) (h.resolve (.link j))
      | _ => false
  | .assign i x v, b =>
    same (.assign i x v) b ||
      match b with
      | .assign _ y w => x = y && equalWith h envs far v w
      | _ => false
  | .function i p c, b =>
    same (.function i p c) b ||
      match b with
      | .function _ q d => equalWith h envs far p q && equalWith h envs far c d
      | _ => false
  | .apply i f a, b =>
    same (.apply i f a) b ||
      match b with
      | .apply _ g c => equalWith h envs far f g && equalWith h envs far a c
      | _ => false
  | .scope i c d, b =>
    same (.scope i c d) b ||
      match b with
      | .scope _ c' d' => equalWith h envs far c c' && equalWith h envs far d d'
      | _ => false
  | .assert i v c, b =>
    same (.assert i v c) b ||
      match b with
      | .assert _ v' c' => equalWith h envs far v v' && equalWith h envs far c c'
      | _ => false
  | .matchCase i p c, b =>
    same (.matchCase i p c) b ||
      match b with
      | .matchCase _ q d => equalWith h envs far p q && equalWith h envs far c d
      | _ => false
  | .matchFunction i cs, b =>
    same (.matchFunction i cs) b ||
      match b with
      | .matchFunction _ ds => equalCases h envs far cs ds
      | _ => false
  | .access i o f, b =>
    same (.access i o f) b ||
      match b with
      | .access _ o' f' => equalWith h envs far o o' && equalWith h envs far f f'
      | _ => false
  | .variant i t v, b =>
    same (.variant i t v) b ||
      match b with
      | .variant _ t' w => t = t' && equalWith h envs far v w
      | _ => false
  | .environment i bs, b =>
    same (.environment i bs) b ||
      match b with
      | .environment _ cs => bs.length = cs.length && equalFields h envs far bs cs
      | _ => false
  | .relocation _ n x, b =>
    match b with
    | .relocation _ m y => n = m && x = y
    | _ => false
  | .native _ f, b =>
    match b with
    | .native _ g => f = g
    | _ => false
  | .closure e c, b =>
    match b with
    | .closure e' c' =>
      e = e' || (envs e e' && equalWith h envs far c c')
    | .link j => far (.closure e c) (h.resolve (.link j))
    | _ => false
  | .link i, b => same (h.resolve (.link i)) (h.resolve b) || far (h.resolve (.link i)) b

def equalAll (h : Heap) (envs : Nat → Nat → Bool) (far : Term → Term → Bool) : List Term → List Term → Bool
  | [], [] => true
  | a :: as, b :: bs => equalWith h envs far a b && equalAll h envs far as bs
  | _, _ => false

def equalFields (h : Heap) (envs : Nat → Nat → Bool) (far : Term → Term → Bool) :
    List (String × Term) → Dict Term → Bool
  | [], _ => true
  | (k, v) :: fs, gs =>
    (match gs.get? k with
      | some w => equalWith h envs far v w
      | none => false) && equalFields h envs far fs gs

def equalCases (h : Heap) (envs : Nat → Nat → Bool) (far : Term → Term → Bool) :
    List (Term × Term) → List (Term × Term) → Bool
  | [], [] => true
  | (p, c) :: as, (q, d) :: bs => equalWith h envs far p q && equalWith h envs far c d && equalCases h envs far as bs
  | _, _ => false

end

def equalEnvs (h : Heap) (far : Term → Term → Bool) (e e' : Nat) : Bool :=
  equalMaps (fun v w => v.same w || far v w) (h.envOf e) (h.envOf e')

/-- Compares two terms, going through at most `turns` pairs of environments or links; `last` is the answer for what
lies beyond. -/
def equalWithin (h : Heap) (last : Bool) : Nat → Term → Term → Bool
  | 0, _, _ => last
  | turns + 1, a, b => equalWith h (equalEnvs h (equalWithin h last turns)) (equalWithin h last turns) a b

/-- More pairs than a comparison that comes to an end passes on its way. -/
def comparisons (h : Heap) : Nat := h.turns * (h.turns + h.next)

/-- Equality of terms. A walk that passes more pairs than there are has come back to one it has seen. -/
def equal (h : Heap) (a b : Term) : Bool := equalWithin h true (comparisons h) a b

def equal? (h : Heap) (a b : Term) : Option Bool :=
  if equalWithin h true (comparisons h) a b = equalWithin h false (comparisons h) a b then some (equal h a b) else none

end Scrap.Term
