import Scrap.Build.Flags
import Scrap.Code.Compile
import Scrap.Code.Preamble
import Scrap.Code.Valid
import Scrap.Command.Arguments
import Scrap.Command.Help
import Scrap.Machine.Output
import Scrap.Repl.Basic
import Scrap.Repl.History

/-! # Running commands

A command sees files, standard input and the environment, and results in text, in files and possibly in an error. -/

namespace Scrap.Command

structure World where
  files : Dict String := []
  input : String := ""
  environment : Dict String := []
  /-- The C text that supports all programs, as it is installed. -/
  support : String := ""

inductive Failure where
  | source (cause : SourceError)
  | eval (cause : EvalError)
  | printing (cause : PrintError)
  | typing (cause : TypingError)
  | encoding (cause : EncodeError)
  | compile (cause : CompileError)
  | flags (cause : Build.FlagError)
  | fileNotFound (name : String)
  | processFailed
deriving Repr

def Failure.message : Failure → String
  | .source e => e.message
  | .eval e => e.message
  | .printing e => e.message
  | .typing e => e.message
  | .encoding e => e.message
  | .compile e => e.message
  | .flags e => e.message
  | .fileNotFound name => "[Errno 2] No such file or directory: " ++ Text.literal name
  | .processFailed => "process failed"

/-- What a command results in: what it writes to standard output and standard error, the files that it writes, and
its exit code or the error that it ends with. -/
structure Result where
  out : List UInt8 := []
  err : String := ""
  files : Dict String := []
  exit : Nat := 0
  failure : Option Failure := none

abbrev Work := ExceptT Failure (StateM Result)

def write (s : String) : Work Unit := modify fun r => { r with out := r.out ++ Text.utf8 s }

def complain (s : String) : Work Unit := modify fun r => { r with err := r.err ++ s }

def writeFile (name content : String) : Work Unit := modify fun r => { r with files := r.files.set name content }

def lifted {ε α : Type} (f : ε → Failure) : Except ε α → Work α
  | .ok a => return a
  | .error e => throw (f e)

/-- Ends every line in a newline, also where it ended in a carriage return or in both. -/
def withNewlines : List Char → List Char
  | [] => []
  | '\r' :: '\n' :: cs => '\n' :: withNewlines cs
  | '\r' :: cs => '\n' :: withNewlines cs
  | c :: cs => c :: withNewlines cs

def World.file (w : World) (name : String) : Work String :=
  match w.files.get? name with
  | some s => return String.ofList (withNewlines s.toList)
  | none => throw (.fileNotFound name)

def World.read (w : World) (name : String) : Work String := if name = "-" then return w.input else w.file name

def logText (log : Array String) : String := String.join (log.toList.map fun s => "DEBUG:scrapscript:" ++ s ++ "\n")

/-! ### Evaluation -/

def readProgram (session : Session) (text : String) : Work (Term × Session) := do
  let result := Source.term text
  let session := match result with
    | .error (.scan _) => session
    | _ => ((Session.note "Tokens: <scrapscript.Peekable object>").run session).2
  match result with
  | .error e =>
    complain (logText (session.log.getD #[]))
    throw (.source e)
  | .ok t =>
    let (t, heap) := session.heap.place t
    return (t, ((Session.noteTerm "AST: " t).run { session with heap }).2)

def newSession (debug : Bool) : Session := { heap := Boot.builtins.2, log := if debug then some #[] else none }

def evaluate (debug : Bool) (text : String) : Work Unit := do
  let (t, session) ← readProgram (newSession debug) text
  let work : EvalM Term := do eval Boot.depth (← Boot.env Boot.builtins.1) t
  let (result, session) := work.run.run session
  complain (logText (session.log.getD #[]))
  let value ← lifted .eval result
  let (text, _) := (value.print session.heap).run.run session.seen
  write ((← lifted .printing text) ++ "\n")

def check (debug : Bool) (text : String) : Work Unit := do
  let (t, session) ← readProgram (newSession debug) text
  complain (logText (session.log.getD #[]))
  let work : InferM String := do
    let ty ← Infer.infer Infer.operators t
    Infer.onStore do TypeM.text (← TypeM.minimize ty)
  let (result, _) := work.run.run Infer.start
  write ((← lifted .typing result) ++ "\n")

def flat (text : String) : Work Unit := do
  let (t, heap) := ({} : Heap).place (← lifted .source (Source.term text))
  let bytes ← lifted .encoding (t.serialized heap)
  modify fun r => { r with out := r.out ++ bytes }

/-! ### Compilation -/

/-- The bytes of memory that a program starts with; the store cannot be laid out for a negative number. -/
def memorySize (memory : Option Int) : Option Nat :=
  match memory with
  | none => some 4096
  | some n => if n = 0 then some 4096 else if 0 < n && n < 140737488355328 then some n.toNat else none

def runProgram (p : Code.Program) (memory : Option Int) : Machine.Outcome :=
  match memorySize memory with
  | some n => Machine.run p n
  | none => { stop := some (.report "mmap failed") }

def compile (w : World) (o : CompileOptions) : Work Unit := do
  let text ← w.file o.file
  let (t, heap) := ({} : Heap).place (← lifted .source (Source.term text))
  let inference ←
    if o.check then
      let (r, inference) := (Infer.infer Infer.operators t).run.run Infer.start
      discard (lifted .typing r)
      pure inference
    else pure {}
  let p ← lifted .compile (t.compiled { debug := o.debug, inference, heap })
  let platform ← match o.platform with
    | none => pure Code.platform
    | some name => w.file name
  writeFile o.output (Code.preamble w.support ++ p.text ++ platform)
  if o.build || o.run then
    let cc ← lifted .flags (Build.fromEnvironment w.environment "CC" ["clang"])
    discard (lifted .flags (Build.flags w.environment cc o.debug))
    discard (lifted .flags (Build.fromEnvironment w.environment "LDFLAGS" []))
    if !p.isValid then throw .processFailed
  if o.run then
    let outcome := runProgram p o.memory
    modify fun r => { r with out := r.out ++ outcome.output.toList }
    if outcome.stop.isSome then throw .processFailed

/-! ### Interaction -/

def prompt (more : Bool) : String := if more then "... " else ">>> "

def farewell : String := "\nnow exiting ScrapRepl...\n"

def inputLines (text : String) : List String :=
  match (text.splitOn "\n").reverse with
  | "" :: ls => ls.reverse
  | ls => ls.reverse

def interact (r : Repl) (more : Bool) : List String → Work Unit
  | [] => write (prompt more)
  | line :: lines => do
    write (prompt more)
    let (reply, r) := r.push line
    complain (logText reply.log ++ reply.err)
    write reply.out
    interact r reply.more lines

def repl (w : World) (debug : Bool) : Work Unit := do
  let (log, r) := (Repl.start debug).takeLog
  complain (logText log)
  interact r false (inputLines w.input)
  complain farewell
  writeFile History.fileName (History.kept ((w.files.get? History.fileName).getD ""))

/-! ### Commands -/

def Invocation.perform (w : World) : Invocation → Work Unit
  | .repl debug => Command.repl w debug
  | .test => return ()
  | .eval file debug => do Command.evaluate debug (← w.read file)
  | .check file debug => do Command.check debug (← w.read file)
  | .apply program debug => Command.evaluate debug program
  | .compile o => Command.compile w o
  | .flat => Command.flat w.input
  | .help command => write (helpText command)

def run (w : World) (args : List String) : Result :=
  match read w.files.has args with
  | .error _ => { exit := 2 }
  | .ok i =>
    match (i.perform w).run.run {} with
    | (.ok _, r) => r
    | (.error e, r) => { r with exit := 1, failure := some e }

end Scrap.Command
