/-!
# The help of the command line
-/

namespace Scrap.Command

private def overview : List String :=
  ["usage: scrapscript [-h] \x7brepl,test,eval,check,apply,compile,flat\x7d ...",
    "",
    "positional arguments:",
    "  \x7brepl,test,eval,check,apply,compile,flat\x7d",
    "",
    "options:",
    "  -h, --help            show this help message and exit"]

/-- The help of a command that takes no switch but `--debug` and at most one other argument, whose description `usage`
and `argument` give. -/
private def simple (usage : String) (argument : Option String) (width : Nat) (debug : Bool) : List String :=
  let pad := String.ofList (List.replicate (width - "-h, --help".length) ' ')
  ["usage: scrapscript " ++ usage, ""] ++
    (match argument with
      | some a => ["positional arguments:", "  " ++ a, ""]
      | none => []) ++
    ["options:", "  -h, --help" ++ pad ++ "show this help message and exit"] ++ (if debug then ["  --debug"] else [])

private def compileHelp : List String :=
  ["usage: scrapscript compile [-h] [-o OUTPUT] [--format] [--compile]",
    "                           [--memory MEMORY] [--run] [--debug] [--check]",
    "                           [--platform PLATFORM]",
    "                           file",
    "",
    "positional arguments:",
    "  file",
    "",
    "options:",
    "  -h, --help            show this help message and exit",
    "  -o OUTPUT, --output OUTPUT",
    "  --format",
    "  --compile",
    "  --memory MEMORY",
    "  --run",
    "  --debug",
    "  --check",
    "  --platform PLATFORM"]

private def helpLines : Option String → List String
  | some "repl" => simple "repl [-h] [--debug]" none 12 true
  | some "test" => simple "test [-h] [--debug] [unittest_args ...]" (some "unittest_args") 15 true
  | some "eval" => simple "eval [-h] [--debug] program_file" (some "program_file") 14 true
  | some "check" => simple "check [-h] [--debug] program_file" (some "program_file") 14 true
  | some "apply" => simple "apply [-h] [--debug] program" (some "program") 12 true
  | some "flat" => simple "flat [-h]" none 12 false
  | some "compile" => compileHelp
  | _ => overview

def helpText (command : Option String) : String := String.join ((helpLines command).map (· ++ "\n"))

end Scrap.Command
