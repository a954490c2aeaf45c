import Scrap.Eval.Basic
import Scrap.Term.Parser

/-!
# The boot environment

Programs start in an environment of built-in functions and of the prelude, which is written in the language itself.
-/

namespace Scrap

namespace Boot

def preludeText : String := "
id = x -> x

. quicksort =
  | [] -> []
  | [p, ...xs] -> (concat ((quicksort (ltp xs p)) +< p) (quicksort (gtp xs p))
    . gtp = xs -> p -> filter (x -> x >= p) xs
    . ltp = xs -> p -> filter (x -> x < p) xs)

. filter = f ->
  | [] -> []
  | [x, ...xs] -> f x |> | #true () -> x >+ filter f xs
                         | #false () -> filter f xs

. concat = xs ->
  | [] -> xs
  | [y, ...ys] -> concat (xs +< y) ys

. map = f ->
  | [] -> []
  | [x, ...xs] -> f x >+ map f xs

. range =
  | 0 -> []
  | i -> range (i - 1) +< (i - 1)

. foldr = f -> a ->
  | [] -> a
  | [x, ...xs] -> f x (foldr f a xs)

. take =
  | 0 -> xs -> []
  | n ->
    | [] -> []
    | [x, ...xs] -> x >+ take (n - 1) xs

. all = f ->
  | [] -> #true ()
  | [x, ...xs] -> f x && all f xs

. any = f ->
  | [] -> #false ()
  | [x, ...xs] -> f x || any f xs
"

def read (text : String) : Term :=
  match tokenize text with
  | .ok ts => ((Reader.parse { tokens := ts }).1.toOption).getD (.hole 0)
  | .error _ => .hole 0

def prelude : Term := read preludeText

def addition : Term :=
  .function 0 (.var 0 "x") (.function 0 (.var 0 "y") (.binop 0 .add (.var 0 "x") (.var 0 "y")))

def builtins : Env × Heap :=
  let (code, h) := ({} : Heap).place addition
  let (add, h) := h.newClosure [] code
  let (natives, h) := Native.all.foldl (fun (acc : Env × Heap) f =>
    let (t, h) := acc.2.place (.native 0 f)
    (acc.1 ++ [(f.name, t)], h)) ([], h)
  (("$$add", add) :: natives, h)

def depth : Nat := 1000000

def env (std : Env) : EvalM Env := do
  let t ← Session.onHeap fun h => h.place prelude
  match ← eval depth std t with
  | .environment _ bs => return bs
  | _ => throw .bindingNotAssignment

end Boot

end Scrap
