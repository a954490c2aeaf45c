import Scrap.Term.Description
import Scrap.Term.Equality
import Scrap.Text.Armor

/-! # Printing terms

The printer remembers the terms it is inside of and prints three dots for one it meets again; when printing fails, it
forgets nothing, so a term on the way to the failure is cut short the next time. What it removes when it is done with a
term is the first remembered term that equals it. -/

namespace Scrap

inductive PrintError where
  | noSymbol (op : BinaryOp)
  | paramNotVariable
  | noWrittenForm
  | tooManyDigits
deriving DecidableEq, Repr

def PrintError.message : PrintError → String
  | .noSymbol op => op.description
  | .paramNotVariable => ""
  | .noWrittenForm => "cannot access local variable 'op_prec' where it is not associated with a value"
  | .tooManyDigits =>
    "Exceeds the limit (" ++ toString Text.maxDigits ++
      " digits) for integer string conversion; use sys.set_int_max_str_digits() to increase the limit"

/-- A printer, with the terms it is inside of, outermost first. -/
abbrev Printer := ExceptT PrintError (StateM (List Term))

namespace Printer

def forget (h : Heap) (t : Term) (seen : List Term) : List Term := seen.eraseP fun s => s.same t || s.equal h t

/-- Prints `t` by `body`, unless the printer is inside of it. -/
def inside (h : Heap) (t : Term) (body : Printer String) : Printer String := do
  if (← get).any t.same then return "..."
  modify (· ++ [t])
  let s ← body
  modify (forget h t)
  return s

/-- Puts parentheses around an operation that binds no tighter than its place. -/
def enclosed (b : Binding) (place : Strength) (s : String) : String := if b.left ≤ place then "(" ++ s ++ ")" else s

def integer (n : Int) : Printer String :=
  match Text.intText? n with
  | some s => return s
  | none => throw .tooManyDigits

mutual

/-- Prints a term at a place of the given strength; what lies behind a link is printed by `far`. -/
def printWith (h : Heap) (far : Term → Strength → Printer String) : Term → Strength → Printer String
  | .int i n, _ => inside h (.int i n) (integer n)
  | .truth i b, _ => inside h (.truth i b) (return if b then "True" else "False")
  | .float i x, _ => inside h (.float i x) (return x.text)
  | .complex i z, _ => inside h (.complex i z) (return Binary64.complexText z.re z.im)
  | .string i s, _ => inside h (.string i s) (return Text.escaped s)
  | .bytes i bs, _ => inside h (.bytes i bs) (return "~~" ++ Text.armored bs)
  | .var i x, _ => inside h (.var i x) (return x)
  | .hole i, _ => inside h (.hole i) (return "()")
  | .spread i x, _ => inside h (.spread i x) (return "..." ++ x.getD "")
  | .list i items, _ => inside h (.list i items) do
    return "[" ++ String.intercalate ", " (← printAll h far items) ++ "]"
  | .record i fields, _ => inside h (.record i fields) do
    return "\x7b" ++ String.intercalate ", " (← printFields h far fields) ++ "\x7d"
  | .closure e code, _ => inside h (.closure e code) do
    return "Closure(" ++ Text.listLiteral (h.envOf e).keys ++ ", " ++ (← printWith h far code 0) ++ ")"
  | .environment i bs, _ => inside h (.environment i bs) do
    match Term.envDescription? h bs with
    | some s => return "EnvObject(" ++ s ++ ")"
    | none => throw .tooManyDigits
  | .native i f, _ => inside h (.native i f) (return "NativeFunction(name=" ++ f.name ++ ")")
  | .relocation i n x, _ => inside h (.relocation i n x) (return "Relocation(name=" ++ Text.literal x ++ ")")
  | .variant i t v, p => inside h (.variant i t v) do
    let b := Operator.binding "#"
    return enclosed b p ("#" ++ t ++ " " ++ (← printWith h far v b.right))
  | .assign i x v, p => inside h (.assign i x v) do
    let b := Operator.binding "="
    return enclosed b p (x ++ " = " ++ (← printWith h far v b.right))
  | .binop i op l r, p => inside h (.binop i op l r) do
    match op.symbol? with
    | none => throw (.noSymbol op)
    | some s =>
      let b := Operator.binding s
      let l ← printWith h far l b.left
      let r ← printWith h far r b.right
      return enclosed b p (l ++ " " ++ s ++ " " ++ r)
  | .function i param body, p => inside h (.function i param body) do
    match param with
    | .var _ x =>
      let b := Operator.binding "->"
      return enclosed b p (x ++ " -> " ++ (← printWith h far body b.right))
    | _ => throw .paramNotVariable
  | .matchFunction i cases, p => inside h (.matchFunction i cases) do
    return enclosed (Operator.binding "|") p (String.intercalate "\n" (← printCases h far cases))
  | .scope i body binding, p => inside h (.scope i body binding) do
    let b := Operator.binding "."
    let body ← printWith h far body b.left
    let binding ← printWith h far binding b.right
    return enclosed b p (body ++ " . " ++ binding)
  | .assert i value condition, p => inside h (.assert i value condition) do
    let b := Operator.binding "!"
    let value ← printWith h far value b.left
    let condition ← printWith h far condition b.right
    return enclosed b p (value ++ " ! " ++ condition)
  | .apply i func arg, p => inside h (.apply i func arg) do
    let b := Operator.juxtaposition
    let func ← printWith h far func b.left
    let arg ← printWith h far arg b.right
    return enclosed b p (func ++ " " ++ arg)
  | .access i object field, p => inside h (.access i object field) do
    let b := Operator.binding "@"
    let object ← printWith h far object b.left
    let field ← printWith h far field b.right
    return enclosed b p (object ++ " @ " ++ field)
  | .matchCase i pattern body, _ => inside h (.matchCase i pattern body) (throw .noWrittenForm)
  | .link i, p => far (h.resolve (.link i)) p

def printAll (h : Heap) (far : Term → Strength → Printer String) : List Term → Printer (List String)
  | [] => return []
  | t :: ts => do
    let s ← printWith h far t 0
    return s :: (← printAll h far ts)

def printFields (h : Heap) (far : Term → Strength → Printer String) :
    List (String × Term) → Printer (List String)
  | [] => return []
  | (k, t) :: ts => do
    let s ← printWith h far t 0
    return (k ++ " = " ++ s) :: (← printFields h far ts)

def printCases (h : Heap) (far : Term → Strength → Printer String) : List (Term × Term) → Printer (List String)
  | [] => return []
  | (p, b) :: cs => do
    let binding := Operator.binding "|"
    let p ← printWith h far p binding.left
    let b ← printWith h far b binding.right
    return ("| " ++ p ++ " -> " ++ b) :: (← printCases h far cs)

end

def printWithin (h : Heap) : Nat → Term → Strength → Printer String
  | 0, _, _ => return "..."
  | turns + 1, t, p => printWith h (printWithin h turns) t p

end Printer

def Term.print (h : Heap) (t : Term) (place : Strength := 0) : Printer String :=
  Printer.printWithin h (h.knots.length + 1) t place

/-- How a term is shown in messages: printed, except that an environment only shows its names. -/
def Term.shown (h : Heap) (t : Term) : Printer String :=
  match h.resolve t with
  | .environment _ bs => return "EnvObject(keys=dict_keys(" ++ Text.listLiteral (Dict.keys bs) ++ "))"
  | t => t.print h

def Term.pretty (h : Heap) (t : Term) (place : Strength := 0) : Except PrintError String :=
  ((t.print h place).run.run []).1

end Scrap
