import Scrap.Command.Run

/-! # The program

The command line reads the files that the arguments may name and writes what the command results in. -/

namespace Scrap.Main

def readFile? (name : String) : IO (Option String) := do
  try
    return some (← IO.FS.readFile name)
  catch _ => return none

def readFiles (names : List String) : IO (Dict String) := do
  let mut files : Dict String := []
  for name in names do
    match ← readFile? name with
    | some s => files := files.set name s
    | none => pure ()
  return files

/-- The support of programs stands beside this program. -/
def readSupport : IO String := do
  let folder := (← IO.appPath).parent.getD "."
  return (← readFile? (folder / "support.c").toString).getD ""

/-- The parts of an argument that can be names of files. -/
def candidates (arg : String) : List String :=
  [arg, "=".intercalate ((arg.splitOn "=").drop 1), String.ofList (arg.toList.drop 2)]

def readEnvironment : IO (Dict String) := do
  let mut found : Dict String := []
  for key in ["CC", "CFLAGS", "LDFLAGS"] do
    match ← IO.getEnv key with
    | some v => found := found.set key v
    | none => pure ()
  return found

partial def converse (input output err : IO.FS.Stream) (r : Repl) (more : Bool) : IO Unit := do
  output.putStr (Command.prompt more)
  output.flush
  let line ← input.getLine
  if line.isEmpty then
    err.putStr Command.farewell
  else
    let line := if line.toList.getLast? = some '\n' then String.ofList line.toList.dropLast else line
    let (reply, r) := r.push line
    err.putStr (Command.logText reply.log ++ reply.err)
    output.putStr reply.out
    converse input output err r reply.more

def repl (files : Dict String) (debug : Bool) : IO UInt32 := do
  let (log, r) := (Repl.start debug).takeLog
  let err ← IO.getStderr
  err.putStr (Command.logText log)
  converse (← IO.getStdin) (← IO.getStdout) err r false
  IO.FS.writeFile History.fileName (History.kept ((files.get? History.fileName).getD ""))
  return 0

def readsInput : Command.Invocation → Bool
  | .eval "-" _ | .check "-" _ | .flat => true
  | _ => false

def run (args : List String) : IO UInt32 := do
  let files ← readFiles (History.fileName :: args.flatMap candidates)
  match Command.read files.has args with
  | .ok (.repl debug) => repl files debug
  | invocation =>
    let wanted := match invocation with
      | .ok i => readsInput i
      | .error _ => false
    let input ← if wanted then (← IO.getStdin).readToEnd else pure ""
    let result := Command.run { files, input, environment := ← readEnvironment, support := ← readSupport } args
    for (name, content) in result.files do
      IO.FS.writeFile name content
    let out ← IO.getStdout
    out.write (ByteArray.mk result.out.toArray)
    let err ← IO.getStderr
    err.putStr result.err
    match result.failure with
    | some e => err.putStrLn e.message
    | none => pure ()
    return UInt32.ofNat result.exit

end Scrap.Main

def main (args : List String) : IO UInt32 := Scrap.Main.run args
