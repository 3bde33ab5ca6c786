import Pddl.Ground.Task
import Pddl.Search.Plan
/-!
# Plan validation

A plan is valid when it can be replayed from the initial state, each action applicable in the
state reached before it, and the goal holds at the end. The first action that cannot be applied,
or the final state when the goal does not hold, says why a plan is not valid.
-/

namespace Pddl

/-- Why a plan is not valid. -/
inductive ValidationError where
  /-- The action at the step (counted from 1) is not applicable in the state. -/
  | inapplicable (step : Nat) (action state : String)
  | goalNotSatisfied (steps : Nat) (state : String)
  deriving DecidableEq, Inhabited

namespace ValidationError

def message : ValidationError → String
  | .inapplicable step a s => "action " ++ a ++ " at step " ++ toString step ++ " is not applicable in state " ++ s
  | .goalNotSatisfied steps s =>
      "the goal does not hold after the " ++ toString steps ++ " steps of the plan, final state: " ++ s

def kind : ValidationError → String
  | .inapplicable .. => "Inapplicable"
  | .goalNotSatisfied .. => "GoalNotSatisfied"

end ValidationError

namespace GroundProblem

/-- Replays the actions from the state, the first at the given step; the final state, or the
first action that cannot be applied. -/
def replay (gp : GroundProblem) : Nat → State → List Action → Except ValidationError State
  | _, s, [] => pure s
  | step, s, a :: rest =>
      if a.isApplicable s then gp.replay (step + 1) (gp.successor s a) rest
      else throw (.inapplicable step a.display (s.displayText gp.atoms))

/-- Checks the plan against the problem. -/
def validate (gp : GroundProblem) (p : Plan) : Except ValidationError Unit := do
  let s ← gp.replay 1 gp.init p.actions
  if gp.isGoal s then pure ()
  else throw (.goalNotSatisfied p.length (s.displayText gp.atoms))

/-- Whether the plan is valid, and the warning that says why not. -/
def planIsValid (gp : GroundProblem) (p : Plan) : Bool × List String :=
  match gp.validate p with
  | .ok () => (true, [])
  | .error e => (false, ["invalid plan: " ++ e.message])

end GroundProblem

end Pddl
