import Scrap.Heap
import Scrap.Text.Integer

/-! # Descriptions of terms

Reports show a term by the names of its forms and fields, and one inside itself as three dots. A term with an integer
of too many digits has no description. -/

namespace Scrap

private def nameDescription : Option String → String
  | none => "None"
  | some s => Text.literal s

private def dictDescription (entries : List (String × String)) : String :=
  "\x7b" ++ String.intercalate ", " (entries.map fun (k, v) => Text.literal k ++ ": " ++ v) ++ "\x7d"

namespace Term

mutual

/-- Describes a term. `path` holds the lists, records and closures that the term stands in; what lies behind a link
or in the environment of a closure is described by `far`. -/
def describeWith (h : Heap) (far : List Term → Term → Option String) (path : List Term) : Term → Option String
  | .int _ n => return "Int(value=" ++ (← Text.intText? n) ++ ")"
  | .truth _ b => return "Int(value=" ++ (if b then "True" else "False") ++ ")"
  | .float _ x => return "Float(value=" ++ x.text ++ ")"
  | .complex _ z => return "Float(value=" ++ Binary64.complexText z.re z.im ++ ")"
  | .string _ s => return "String(value=" ++ Text.literal s ++ ")"
  | .bytes _ bs => return "Bytes(value=" ++ Text.bytesLiteral bs ++ ")"
  | .var _ x => return "Var(name=" ++ Text.literal x ++ ")"
  | .hole _ => return "Hole()"
  | .spread _ x => return "Spread(name=" ++ nameDescription x ++ ")"
  | .binop _ op l r => do
    let l ← describeWith h far path l
    let r ← describeWith h far path r
    return "Binop(op=" ++ op.description ++ ", left=" ++ l ++ ", right=" ++ r ++ ")"
  | .list i items => do
    let me := Term.list i items
    if path.any me.same then return "..."
    return "List(items=[" ++ String.intercalate ", " (← describeAll h far (me :: path) items) ++ "])"
  | .record i fields => do
    let me := Term.record i fields
    if path.any me.same then return "..."
    return "Record(data=" ++ dictDescription (← describeFields h far (me :: path) fields) ++ ")"
  | .assign _ x v => do
    let v ← describeWith h far path v
    return "Assign(name=Var(name=" ++ Text.literal x ++ "), value=" ++ v ++ ")"
  | .function _ p b => do
    let p ← describeWith h far path p
    let b ← describeWith h far path b
    return "Function(arg=" ++ p ++ ", body=" ++ b ++ ")"
  | .apply _ f a => do
    let f ← describeWith h far path f
    let a ← describeWith h far path a
    return "Apply(func=" ++ f ++ ", arg=" ++ a ++ ")"
  | .scope _ b d => do
    let b ← describeWith h far path b
    let d ← describeWith h far path d
    return "Where(body=" ++ b ++ ", binding=" ++ d ++ ")"
  | .assert _ v c => do
    let v ← describeWith h far path v
    let c ← describeWith h far path c
    return "Assert(value=" ++ v ++ ", cond=" ++ c ++ ")"
  | .matchCase _ p b => do
    let p ← describeWith h far path p
    let b ← describeWith h far path b
    return "MatchCase(pattern=" ++ p ++ ", body=" ++ b ++ ")"
  | .matchFunction _ cases => do
    return "MatchFunction(cases=[" ++ String.intercalate ", " (← describeCases h far path cases) ++ "])"
  | .access _ o f => do
    let o ← describeWith h far path o
    let f ← describeWith h far path f
    return "Access(obj=" ++ o ++ ", at=" ++ f ++ ")"
  | .variant _ t v => do
    let v ← describeWith h far path v
    return "Variant(tag=" ++ Text.literal t ++ ", value=" ++ v ++ ")"
  | .environment _ bs => do
    return "EnvObject(env=" ++ dictDescription (← describeFields h far path bs) ++ ")"
  | .relocation _ isNative x =>
    return (if isNative then "NativeFunctionRelocation" else "Relocation") ++ "(name=" ++ Text.literal x ++ ")"
  | .native _ f => return "NativeFunction(name=" ++ Text.literal f.name ++ ", func=<function>)"
  | .closure e code => do
    let me := Term.closure e code
    if path.any me.same then return "..."
    let env ← (h.envOf e).mapM fun (k, v) => return (k, ← far (me :: path) v)
    let code ← describeWith h far (me :: path) code
    return "Closure(env=" ++ dictDescription env ++ ", func=" ++ code ++ ")"
  | .link i => far path (h.resolve (.link i))

def describeAll (h : Heap) (far : List Term → Term → Option String) (path : List Term) :
    List Term → Option (List String)
  | [] => return []
  | t :: ts => do
    let d ← describeWith h far path t
    return d :: (← describeAll h far path ts)

def describeFields (h : Heap) (far : List Term → Term → Option String) (path : List Term) :
    List (String × Term) → Option (List (String × String))
  | [] => return []
  | (k, t) :: ts => do
    let d ← describeWith h far path t
    return (k, d) :: (← describeFields h far path ts)

def describeCases (h : Heap) (far : List Term → Term → Option String) (path : List Term) :
    List (Term × Term) → Option (List String)
  | [] => return []
  | (p, b) :: cs => do
    let p ← describeWith h far path p
    let b ← describeWith h far path b
    return ("MatchCase(pattern=" ++ p ++ ", body=" ++ b ++ ")") :: (← describeCases h far path cs)

end

def describeWithin (h : Heap) : Nat → List Term → Term → Option String
  | 0, _, _ => return "..."
  | turns + 1, path, t => describeWith h (describeWithin h turns) path t

def description? (h : Heap) (t : Term) : Option String := describeWithin h h.turns [] t

/-- The description of a term in a report, where three dots stand for one that has none. A term that was read has
one. -/
def description (h : Heap) (t : Term) : String := (description? h t).getD "..."

def envDescription? (h : Heap) (env : Env) : Option String := do
  return dictDescription (← describeFields h (describeWithin h h.turns) [] env)

end Term

end Scrap
