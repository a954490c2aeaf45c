import Scrap.Term.FreeVars

/-! # Completion of names

A completer looks names up when the first one is asked for and answers from what it found after that. -/

namespace Scrap

inductive CompletionError where
  | access
deriving DecidableEq, Repr

def CompletionError.message : CompletionError → String
  | .access => "TODO: handle attr/index access"

structure Completer where
  names : List String
  found : List String := []
deriving DecidableEq, Repr

namespace Completer

def candidate? (names : List String) (position : Int) : Option String :=
  if 0 ≤ position then names[position.toNat]?
  else if -position ≤ names.length then names[(names.length + position).toNat]?
  else none

def complete (c : Completer) (text : String) (position : Int) : Except CompletionError (Option String) × Completer :=
  if text.toList.contains '@' then (.error .access, c)
  else
    let c := if position = 0 then
        { c with found := (Term.sortedNames c.names).filter fun n => text.toList.isPrefixOf n.toList }
      else c
    (.ok (candidate? c.found position), c)

end Completer

end Scrap
