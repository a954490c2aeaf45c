import Scrap.Eval.Basic

/-! # Chains of evaluations

Every term is evaluated in the environment that the one before it left. A definition adds its names; any other value
gets the name `_`. -/

namespace Scrap.Chain

def after (env : Env) (value : Term) : Env :=
  match value with
  | .environment _ bs => env.merge bs
  | value => env.set "_" value

def bind (fuel : Nat) (env : Env) (t : Term) : EvalM (Term × Env) := do
  let value ← eval fuel env t
  return (value, after env value)

end Scrap.Chain
