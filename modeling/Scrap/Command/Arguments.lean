import Scrap.Dict
import Scrap.Text.Integer

/-! # Command-line arguments

The first argument that is no switch names a command. A long switch can be shortened as long as one switch fits; after
two dashes nothing is a switch, nor is a negative number or a text with a space. -/

namespace Scrap.Command

/-- A switch, by its short and long names; some take a value. -/
structure Switch where
  names : List String
  takesValue : Bool := false
deriving DecidableEq, Repr

def Switch.name (s : Switch) : String := s.names.getLast?.getD ""

structure Form where
  switches : List Switch := []
  positional : Nat := 0
deriving DecidableEq, Repr

def help : Switch := { names := ["-h", "--help"] }

inductive Piece where
  | positional (text : String)
  /-- A switch with the value that came in the same argument; `joined` if it followed a short name directly. -/
  | switch (s : Switch) (value : Option String) (joined : Bool)
  | unknown
  | separator
deriving DecidableEq, Repr

inductive Refusal where
  | help
  | fault
deriving DecidableEq, Repr

/-! ### Single arguments -/

private def splitAtEquals (cs : List Char) : String × Option String :=
  let before := cs.takeWhile (· ≠ '=')
  let value := if before.length = cs.length then none else some (String.ofList (cs.drop (before.length + 1)))
  (String.ofList before, value)

private def allDigits (cs : List Char) : Bool := cs.all fun c => (Text.decimalValue? c).isSome

def isNegativeNumber (s : String) : Bool :=
  match s.toList with
  | '-' :: cs =>
    let cs := if cs.getLast? = some '\n' then cs.dropLast else cs
    let whole := cs.takeWhile (· ≠ '.')
    match cs.drop whole.length with
    | [] => !cs.isEmpty && allDigits cs
    | _ :: fraction => allDigits whole && !fraction.isEmpty && allDigits fraction
  | _ => false

def Form.candidates (f : Form) (s : String) : List Piece :=
  match s.toList with
  | '-' :: '-' :: _ =>
    let (lead, value) := splitAtEquals s.toList
    f.switches.flatMap fun w =>
      (w.names.filter fun n => lead.toList.isPrefixOf n.toList).map fun _ => .switch w value false
  | '-' :: c :: rest =>
    f.switches.filterMap fun w =>
      if w.names.contains (String.ofList ['-', c]) then some (.switch w (some (String.ofList rest)) true) else none
  | _ => []

def Form.classify (f : Form) (s : String) : Except Refusal Piece :=
  if s = "--" then .ok .separator
  else if s.toList.head? ≠ some '-' || s = "-" then .ok (.positional s)
  else
    match f.switches.find? (·.names.contains s) with
    | some w => .ok (.switch w none false)
    | none =>
      let (lead, value) := splitAtEquals s.toList
      match if value.isSome then f.switches.find? (·.names.contains lead) else none with
      | some w => .ok (.switch w value false)
      | none =>
        match f.candidates s with
        | [p] => .ok p
        | _ :: _ :: _ => .error .fault
        | [] => .ok (if isNegativeNumber s || s.toList.contains ' ' then .positional s else .unknown)

def Form.pieces (f : Form) : List String → Except Refusal (List Piece)
  | [] => .ok []
  | s :: r => do
    let p ← f.classify s
    if p = .separator then return p :: r.map .positional else return p :: (← f.pieces r)

/-! ### The arguments of a command -/

/-- The switches that are set, the values of those that take one, and the other arguments. `extra` ones are left
over. -/
structure Arguments where
  flags : List String := []
  values : Dict String := []
  positional : List String := []
  extra : Bool := false
deriving DecidableEq, Repr

/-- Takes up the arguments in order. `valid` tells which values a switch or, without a name, another argument takes;
`adjacent` whether the argument before was a positional one. -/
def Form.take (f : Form) (valid : String → String → Bool) (adjacent : Bool) (a : Arguments) :
    List Piece → Except Refusal Arguments
  | [] => .ok a
  | .positional s :: r =>
    if a.positional.length < f.positional then
      if valid "" s then f.take valid true { a with positional := a.positional ++ [s] } r else .error .fault
    else f.take valid false { a with extra := true } r
  | .separator :: r =>
    -- the separator goes with a positional argument beside it
    let follows := a.positional.length < f.positional && (match r with
      | .positional _ :: _ => true
      | _ => false)
    f.take valid false { a with extra := a.extra || !(adjacent || follows) } r
  | .unknown :: r => f.take valid false { a with extra := true } r
  | .switch w value joined :: r =>
    if w.takesValue then
      match value, r with
      | some v, r =>
        if valid w.name v then f.take valid false { a with values := a.values.set w.name v } r else .error .fault
      | none, .positional v :: r =>
        if valid w.name v then f.take valid false { a with values := a.values.set w.name v } r else .error .fault
      | none, _ => .error .fault
    else if value.isSome && !joined then .error .fault
    else if w = help then .error .help
    else f.take valid false { a with flags := w.name :: a.flags, extra := a.extra || value.isSome } r

/-! ### Commands -/

structure CompileOptions where
  file : String
  output : String := "output.c"
  build : Bool := false
  memory : Option Int := none
  run : Bool := false
  debug : Bool := false
  check : Bool := false
  platform : Option String := none
deriving DecidableEq, Repr

inductive Invocation where
  | repl (debug : Bool)
  | test
  | eval (file : String) (debug : Bool)
  | check (file : String) (debug : Bool)
  | apply (program : String) (debug : Bool)
  | compile (options : CompileOptions)
  | flat
  | help (command : Option String)
deriving DecidableEq, Repr

def debugSwitch : Switch := { names := ["--debug"] }

def forms : List (String × Form) :=
  [("repl", { switches := [help, debugSwitch] }),
    ("test", { switches := [help, debugSwitch], positional := 1000000 }),
    ("eval", { switches := [help, debugSwitch], positional := 1 }),
    ("check", { switches := [help, debugSwitch], positional := 1 }),
    ("apply", { switches := [help, debugSwitch], positional := 1 }),
    ("compile",
      { switches := [help, { names := ["-o", "--output"], takesValue := true }, { names := ["--format"] },
          { names := ["--compile"] }, { names := ["--memory"], takesValue := true }, { names := ["--run"] },
          debugSwitch, { names := ["--check"] }, { names := ["--platform"], takesValue := true }]
        positional := 1 }),
    ("flat", { switches := [help] })]

def invocation (command : String) (a : Arguments) : Option Invocation :=
  let debug := a.flags.contains "--debug"
  match command, a.positional with
  | "repl", _ => some (.repl debug)
  | "test", _ => some .test
  | "eval", [file] => some (.eval file debug)
  | "check", [file] => some (.check file debug)
  | "apply", [program] => some (.apply program debug)
  | "compile", [file] =>
    some (.compile
      { file, output := (a.values.get? "--output").getD "output.c", build := a.flags.contains "--compile"
        memory := (a.values.get? "--memory").bind fun s => (Text.readInt s).toOption
        run := a.flags.contains "--run", debug
        check := a.flags.contains "--check", platform := a.values.get? "--platform" })
  | "flat", _ => some .flat
  | _, _ => none

def readCommand (readable : String → Bool) (command : String) (args : List String) :
    Except Refusal (Invocation × Bool) :=
  match List.lookup command forms with
  | none => .error .fault
  | some form => do
    let valid (name value : String) : Bool :=
      if name = "--memory" then (Text.readInt value).toOption.isSome
      else if name = "" && (command = "eval" || command = "check") then value = "-" || readable value
      else true
    match form.take valid false {} (← form.pieces args) with
    | .error .help => .ok (.help (some command), false)
    | .error .fault => .error .fault
    | .ok a =>
      match invocation command a with
      | some i => .ok (i, a.extra)
      | none => .error .fault

/-- Reads the arguments before the command; `extra` ones make them wrong, unless help is asked for. -/
def readFrom (readable : String → Bool) (extra : Bool) : List String → Except Refusal Invocation
  | [] => if extra then .error .fault else .ok (.repl false)
  | s :: r =>
    match Form.classify { switches := [help] } s with
    | .ok (.positional command) => do
      match ← readCommand readable command r with
      | (.help c, _) => return .help c
      | (i, left) => if extra || left then .error .fault else return i
    | .ok .unknown => readFrom readable true r
    | .ok (.switch _ value joined) => if value.isSome && !joined then .error .fault else .ok (.help none)
    | _ => .error .fault

def read (readable : String → Bool) (args : List String) : Except Refusal Invocation := readFrom readable false args

end Scrap.Command
