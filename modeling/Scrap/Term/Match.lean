import Scrap.Heap

/-! # Matching

Literals of a pattern have to be there, variables take what stands in their place, and a spread takes the rest of a
list or a record. A name that occurs twice takes the later part. -/

namespace Scrap

inductive MatchError where
  | floatPattern
  | notAPattern (kind : String)
deriving DecidableEq, Repr

def MatchError.message : MatchError → String
  | .floatPattern => "pattern matching is not supported for Floats"
  | .notAPattern kind => "match not implemented for " ++ kind

namespace Term

mutual

/-- Matches `t` with a pattern: what the names of the pattern stand for, or nothing if `t` does not fit. The lists
and records that spreads take are new and have no identity yet. -/
def matchPattern (h : Heap) : Term → Term → Except MatchError (Option Env)
  | .hole _, t =>
    match h.resolve t with
    | .hole _ => .ok (some [])
    | _ => .ok none
  | .int _ n, t => .ok (if (h.resolve t).int? = some n then some [] else none)
  | .truth _ b, t => .ok (if (h.resolve t).int? = some (if b then 1 else 0) then some [] else none)
  | .float _ _, _ => .error .floatPattern
  | .complex _ _, _ => .error .floatPattern
  | .string _ s, t =>
    match h.resolve t with
    | .string _ s' => .ok (if s = s' then some [] else none)
    | _ => .ok none
  | .var _ x, t => .ok (some [(x, t)])
  | .variant _ tag p, t =>
    match h.resolve t with
    | .variant _ tag' v => if tag = tag' then matchPattern h p v else .ok none
    | _ => .ok none
  | .record _ ps, t =>
    match h.resolve t with
    | .record _ fields => matchFields h ps fields ps.length [] []
    | _ => .ok none
  | .list _ ps, t =>
    match h.resolve t with
    | .list _ items => matchItems h ps items []
    | _ => .ok none
  | .bytes i bs, _ => .error (.notAPattern (kind (.bytes i bs)))
  | .spread i x, _ => .error (.notAPattern (kind (.spread i x)))
  | .binop i op l r, _ => .error (.notAPattern (kind (.binop i op l r)))
  | .assign i x v, _ => .error (.notAPattern (kind (.assign i x v)))
  | .function i p b, _ => .error (.notAPattern (kind (.function i p b)))
  | .apply i f a, _ => .error (.notAPattern (kind (.apply i f a)))
  | .scope i b d, _ => .error (.notAPattern (kind (.scope i b d)))
  | .assert i v c, _ => .error (.notAPattern (kind (.assert i v c)))
  | .matchCase i p b, _ => .error (.notAPattern (kind (.matchCase i p b)))
  | .matchFunction i cs, _ => .error (.notAPattern (kind (.matchFunction i cs)))
  | .access i o f, _ => .error (.notAPattern (kind (.access i o f)))
  | .environment i bs, _ => .error (.notAPattern (kind (.environment i bs)))
  | .relocation i n x, _ => .error (.notAPattern (kind (.relocation i n x)))
  | .native i f, _ => .error (.notAPattern (kind (.native i f)))
  | .closure e c, _ => .error (.notAPattern (kind (.closure e c)))
  | .link i, _ => .error (.notAPattern (kind (.link i)))

def matchItems (h : Heap) : List Term → List Term → Env → Except MatchError (Option Env)
  | [], items, found => .ok (if items.isEmpty then some found else none)
  | .spread _ x :: _, items, found =>
    .ok (some (match x with
      | some x => found.set x (.list 0 items)
      | none => found))
  | _ :: _, [], _ => .ok none
  | p :: ps, t :: ts, found =>
    match matchPattern h p t with
    | .ok (some part) => matchItems h ps ts (found.merge part)
    | .ok none => .ok none
    | .error e => .error e

/-- Matches fields by their keys; `seen` holds the keys so far, and without a spread the record has to have as many
fields as the pattern. -/
def matchFields (h : Heap) : List (String × Term) → Dict Term → Nat → List String → Env →
    Except MatchError (Option Env)
  | [], fields, count, _, found => .ok (if count = fields.length then some found else none)
  | (_, .spread _ x) :: _, fields, _, seen, found =>
    .ok (some (match x with
      | some x => found.set x (.record 0 (fields.filter fun f => !seen.contains f.1))
      | none => found))
  | (k, p) :: ps, fields, count, seen, found =>
    match fields.get? k with
    | none => .ok none
    | some v =>
      match matchPattern h p v with
      | .ok (some part) => matchFields h ps fields count (k :: seen) (found.merge part)
      | .ok none => .ok none
      | .error e => .error e

end

end Term

end Scrap
