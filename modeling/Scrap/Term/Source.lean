import Scrap.Term.Parser

/-! # Source text

A program is read into tokens and then into a term. A text that ends too early may become a program when more of it is
known. -/

namespace Scrap

inductive SourceError where
  | scan (cause : ScanError)
  | parse (cause : ParseError)
deriving DecidableEq, Repr

namespace SourceError

def message : SourceError → String
  | .scan e => e.message
  | .parse e => e.message

def isIncomplete : SourceError → Bool
  | .scan .endInToken | .scan .endInString | .parse .endOfInput => true
  | _ => false

/-- Whether the fault lies in the form of the text, and not in a value that it writes. -/
def isSyntax : SourceError → Bool
  | .scan (.integer _) | .scan (.notANumber _) => false
  | .scan _ => true
  | .parse (.badBytes _) | .parse .negativeLiteral | .parse (.unknownOperator _) | .parse .outOfFuel => false
  | .parse _ => true

end SourceError

namespace Source

/-- Reads a program. `generated` names have been made up before; the new number of them is returned too. -/
def read (generated : Nat) (text : String) : Except SourceError Term × Nat :=
  match tokenize text with
  | .error e => (.error (.scan e), generated)
  | .ok tokens =>
    match Reader.parse { tokens, generated } with
    | (.ok t, r) => (.ok t, r.generated)
    | (.error e, r) => (.error (.parse e), r.generated)

def term (text : String) : Except SourceError Term := (read 0 text).1

end Source

end Scrap
