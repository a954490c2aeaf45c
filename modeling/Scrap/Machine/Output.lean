import Scrap.Machine.Run

/-! # The output of a program

What a program prints collects in blocks; a program that gives up loses the last one. -/

namespace Scrap.Machine

abbrev OutM := ExceptT Stop (StateM (Array UInt8))

namespace Output

def text (s : String) : OutM Unit := modify fun out => out ++ (Text.utf8 s).toArray

def bytes (bs : List UInt8) : OutM Unit := modify fun out => out ++ bs.toArray

mutual

def value (m : Image) (s : Store) : Nat → Word → OutM Unit
  | 0, _ => throw .outOfFuel
  | fuel + 1, w => do
    if w.isInt then text (Decimal.intText w.intValue)
    else if w = Word.emptyList then text "[]"
    else if w.isShortString then quoted w.shortBytes
    else if w.isVariant then
      text ("#" ++ m.program.tags.getD w.variantTag "" ++ " ()")
    else if w = Word.hole then text "()"
    else
      match s.get? w with
      | some (.list a b) =>
        text "["
        value m s fuel a
        items m s fuel b
      | some (.record fields) =>
        text "\x7b"
        for ((k, v), i) in fields.zipIdx do
          if i ≠ 0 then text ", "
          text (m.program.keys.getD k "" ++ " = ")
          value m s fuel v
        text "\x7d"
      | some (.closure _ _) => text "<closure>"
      | some (.string bs) => quoted bs
      | some (.variant t v) =>
        text ("#" ++ m.program.tags.getD t "" ++ " ")
        value m s fuel v
      | none => throw .violated
where
  quoted (bs : List UInt8) : OutM Unit := do
    text "\""
    bytes bs
    text "\""

def items (m : Image) (s : Store) : Nat → Word → OutM Unit
  | 0, _ => throw .outOfFuel
  | fuel + 1, w => do
    if w = Word.emptyList then text "]"
    else
      text ", "
      match s.get? w with
      | some (.list a b) =>
        value m s fuel a
        items m s fuel b
      | _ => throw .violated

end

def line (m : Image) (s : Store) (w : Word) : OutM Unit := do
  value m s (2 * (s.constants.size + s.objects.size) + 2) w
  text "\n"

def block : Nat := 4096

/-- What has been written out when the program gives up: whole blocks, and none before more follows. -/
def flushed (out : Array UInt8) : Array UInt8 := out.extract 0 ((out.size - 1) / block * block)

end Output

structure Outcome where
  output : Array UInt8 := #[]
  stop : Option Stop := none
deriving Repr

def run (program : Code.Program) (memory : Nat) : Outcome :=
  let m := Image.ofProgram program
  let store : Store := { constants := m.objects, space := aligned 4096 memory }
  match (start m).run.run { store } with
  | (.error stop, _) => { stop := some stop }
  | (.ok w, s) =>
    match (Output.line m s.store w).run.run #[] with
    | (.ok _, out) => { output := out }
    | (.error stop, out) => { output := Output.flushed out, stop := some stop }

end Scrap.Machine
