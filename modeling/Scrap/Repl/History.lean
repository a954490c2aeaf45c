/-! # The history of interactive sessions

A session takes over a file of lines and leaves the last thousand of them. -/

namespace Scrap.History

def fileName : String := ".scrap-history"

def limit : Nat := 1000

private def splitEnded : List Char → List Char → List (List Char)
  | _, [] => []
  | current, '\n' :: cs => current.reverse :: splitEnded [] cs
  | current, c :: cs => splitEnded (c :: current) cs

def isTime : List Char → Bool
  | '#' :: c :: _ => c.isDigit
  | _ => false

private def withoutReturn (cs : List Char) : List Char := if cs.getLast? = some '\r' then cs.dropLast else cs

/-- The lines of a history: those that are ended and not empty. If the file starts with a time, times are left out. -/
def lines (text : String) : List String :=
  let found := (splitEnded [] text.toList).map withoutReturn |>.filter (!·.isEmpty)
  let found := if isTime text.toList then found.filter (!isTime ·) else found
  found.map String.ofList

def kept (text : String) : String :=
  let found := lines text
  String.join ((found.drop (found.length - limit)).map (· ++ "\n"))

end Scrap.History
