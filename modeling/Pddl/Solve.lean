import Pddl.Problem.Builder
import Pddl.Preprocess.Pipeline
import Pddl.Ground.Strategy
import Pddl.Search.Forward
import Pddl.Search.Validate
/-!
# Solving a lifted problem

Solving checks the lifted problem, prepares it, grounds it with the configured strategy, and
searches for a plan, which is then validated against the ground problem. Each stage that fails
ends the pipeline; its error is kept with the stage it comes from.
-/

namespace Pddl

/-- Why a problem could not be solved, by the stage that failed. -/
inductive SolveError where
  | invalidProblem (e : ModelError)
  | grounding (strategy : GroundingStrategy) (e : GroundingError)
  | invalidPlan (e : ValidationError)
  deriving Inhabited

/-- The message of the error, after the stage that failed. -/
def SolveError.message : SolveError → String
  | .invalidProblem e => "Invalid lifted problem: " ++ e.message
  | .grounding s e => "Grounding with the " ++ s.name ++ " strategy: " ++ e.message
  | .invalidPlan e => "The plan found by the search is invalid: " ++ e.message

/-- The ground problem, the outcome of the search, and the warnings given on the way. -/
structure Solution where
  ground : GroundProblem
  result : SearchResult
  warnings : List String
  deriving Inhabited

/-- Checks, prepares, grounds and searches the problem, validating the plan found. -/
def Problem.solve (pb : Problem) (cfg : Config) : Except SolveError Solution := do
  match pb.check with
  | .error e => throw (.invalidProblem e)
  | .ok () => pure ()
  let (pb, w1) := pb.preprocess cfg
  let (gp, w2) ← match pb.ground cfg.grounding with
    | .ok r => pure r
    | .error e => throw (.grounding cfg.grounding e)
  let result := gp.search cfg
  match result with
  | .solved plan =>
      match gp.validate plan with
      | .error e => throw (.invalidPlan e)
      | .ok () => pure ()
  | _ => pure ()
  return ⟨gp, result, w1 ++ w2⟩

end Pddl
