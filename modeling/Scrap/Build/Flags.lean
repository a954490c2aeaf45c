import Scrap.Dict

/-! # Flags of the C compiler

The flags come from the environment, split as a shell does it, or are defaults of the compiler. -/

namespace Scrap.Build

inductive FlagError where
  | noCompiler
  | noClosingQuote
  | noEscapedCharacter
deriving DecidableEq, Repr

def FlagError.message : FlagError → String
  | .noCompiler => "list index out of range"
  | .noClosingQuote => "No closing quotation"
  | .noEscapedCharacter => "No escaped character"

/-! ### Words -/

/-- Where in a text the splitting stands: between words, in a word, in a quotation of a word, or after a backslash,
in a quotation if there is one. -/
inductive Place where
  | between
  | word
  | quoted (quote : Char)
  | escaped (quote : Option Char)
deriving DecidableEq, Repr

def isBlank (c : Char) : Bool := c = ' ' || c = '\t' || c = '\r' || c = '\n'

def isQuote (c : Char) : Bool := c = '\'' || c = '"'

def wordsFrom : Place → List Char → List Char → Except FlagError (List String)
  | .between, _, [] => .ok []
  | .between, _, c :: cs =>
    if isBlank c then wordsFrom .between [] cs
    else if c = '\\' then wordsFrom (.escaped none) [] cs
    else if isQuote c then wordsFrom (.quoted c) [] cs
    else wordsFrom .word [c] cs
  | .word, current, [] => .ok [String.ofList current.reverse]
  | .word, current, c :: cs =>
    if isBlank c then do return String.ofList current.reverse :: (← wordsFrom .between [] cs)
    else if c = '\\' then wordsFrom (.escaped none) current cs
    else if isQuote c then wordsFrom (.quoted c) current cs
    else wordsFrom .word (c :: current) cs
  | .quoted _, _, [] => .error .noClosingQuote
  | .quoted q, current, c :: cs =>
    if c = q then wordsFrom .word current cs
    else if c = '\\' && q = '"' then wordsFrom (.escaped (some q)) current cs
    else wordsFrom (.quoted q) (c :: current) cs
  | .escaped _, _, [] => .error .noEscapedCharacter
  | .escaped none, current, c :: cs => wordsFrom .word (c :: current) cs
  | .escaped (some q), current, c :: cs =>
    -- inside a quotation a backslash stands for itself, unless a quote or a backslash follows
    if c = q || c = '\\' then wordsFrom (.quoted q) (c :: current) cs
    else wordsFrom (.quoted q) (c :: '\\' :: current) cs

def words (s : String) : Except FlagError (List String) := wordsFrom .between [] s.toList

/-! ### Flags -/

def fromEnvironment (environment : Dict String) (key : String) (default : List String) :
    Except FlagError (List String) :=
  match environment.get? key with
  | none | some "" => .ok default
  | some value => words value

private def hasPart (part : List Char) : List Char → Bool
  | [] => part.isEmpty
  | c :: cs => part.isPrefixOf (c :: cs) || hasPart part cs

def contains (s part : String) : Bool := hasPart part.toList s.toList

def flags (environment : Dict String) (compiler : List String) (debug : Bool) : Except FlagError (List String) :=
  match compiler with
  | [] => .error .noCompiler
  | cc :: _ =>
    let optimizing := if debug then ["-O0", "-ggdb"]
      else ["-O2", "-DNDEBUG"] ++ (if contains cc "cosmo" then [] else ["-flto"])
    let heap := if contains cc "mingw" then ["-DSTATIC_HEAP"] else []
    fromEnvironment environment "CFLAGS"
      (["-Wall", "-Wextra", "-fno-strict-aliasing", "-Wno-unused-function"] ++ optimizing ++ heap)

end Scrap.Build
