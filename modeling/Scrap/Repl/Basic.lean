import Scrap.Eval.Chain
import Scrap.Eval.Prelude
import Scrap.Term.Source

/-! # The interactive session

As long as the lines read so far are only the beginning of a program, the session asks for more. A value gets the name
`_`; a definition prints nothing and adds its names. -/

namespace Scrap

/-- The state of an interactive session: what evaluation keeps, the names, and the lines that wait for more. -/
structure Repl where
  session : Session
  env : Env
  generated : Nat := 0
  buffer : List String := []

structure Reply where
  more : Bool := false
  out : String := ""
  log : Array String := #[]
  err : String := ""
deriving DecidableEq, Repr

namespace Repl

def start (logging : Bool) : Repl :=
  let (std, heap) := Boot.builtins
  let (r, session) := (Boot.env std).run.run { heap, log := if logging then some #[] else none }
  { session, env := r.toOption.getD std }

def takeLog (r : Repl) : Array String × Repl :=
  (r.session.log.getD #[], { r with session.log := r.session.log.map fun _ => #[] })

/-- Whether a term may go on in the next line although it is complete. -/
def mayContinue (source : String) : Term → Bool
  | .matchFunction _ _ => source.toList.getLast? ≠ some '\n'
  | _ => false

/-- Evaluates a term to the given depth and takes over what it comes to: a definition's names, and any other value
under the name `_`. -/
def settle (r : Repl) (depth : Nat) (t : Term) : Except EvalError Term × Repl :=
  match (eval depth r.env t).run.run r.session with
  | (.error e, session) => (.error e, { r with session })
  | (.ok (.environment i bs), session) => (.ok (.environment i bs), { r with session, env := r.env.merge bs })
  | (.ok value, session) => (.ok value, { r with session, env := r.env.set "_" value })

def enter (r : Repl) (t : Term) : Term × Repl :=
  let (t, heap) := r.session.heap.place t
  let ((), session) := (Session.noteTerm "AST: " t).run { r.session with heap }
  (t, { r with session })

def answer (r : Repl) (value : Term) : Reply × Repl :=
  let (text, seen) := (value.print r.session.heap).run.run r.session.seen
  let r := { r with session.seen := seen }
  match text with
  | .ok s => ({ out := s ++ "\n" }, r)
  | .error e => ({ err := "Error: " ++ e.message ++ "\n" }, r)

def evaluate (r : Repl) (t : Term) : Reply × Repl :=
  let (t, r) := r.enter t
  match r.settle Boot.depth t with
  | (.error e, r) => ({ err := "Error: " ++ e.message ++ "\n" }, r)
  | (.ok (.environment _ _), r) => ({}, r)
  | (.ok value, r) => r.answer value

def read (r : Repl) (source : String) : Except SourceError Term × Repl :=
  let (result, generated) := Source.read r.generated source
  let r := { r with generated }
  match result with
  | .error (.scan e) => (.error (.scan e), r)
  | result => (result, { r with session := ((Session.note "Tokens: <scrapscript.Peekable object>").run r.session).2 })

def runSource (r : Repl) (source : String) : Reply × Repl :=
  match r.read source with
  | (.error e, r) =>
    if e.isIncomplete then ({ more := true }, r)
    else if e.isSyntax then ({ err := "Parse error: " ++ e.message ++ "\n" }, r)
    else ({ err := "Error: " ++ e.message ++ "\n" }, r)
  | (.ok t, r) => if mayContinue source t then ({ more := true }, r) else r.evaluate t

def push (r : Repl) (line : String) : Reply × Repl :=
  let lines := r.buffer ++ [line]
  let (reply, r) := r.runSource ("\n".intercalate lines)
  let (log, r) := r.takeLog
  ({ reply with log }, { r with buffer := if reply.more then lines else [] })

end Repl

end Scrap
