import Pddl.Condition.Numeric
import Pddl.Ground.Action
/-!
# Plans

A plan is a sequence of ground actions. Its cost is the sum of the costs of its actions, added
left to right in 64-bit arithmetic: a partial sum outside the 64-bit range has no value. A plan
is written one action per line, each after its position (from 0) right-aligned on three
columns.
-/

namespace Pddl

/-- A sequence of ground actions. -/
structure Plan where
  actions : List Action := []
  deriving DecidableEq, Inhabited

namespace Plan

def length (p : Plan) : Nat := p.actions.length

/-- The sum of the action costs, or `none` when a partial sum leaves the 64-bit range. -/
def cost? (p : Plan) : Option Int :=
  p.actions.foldlM (fun acc a => checkedInt64 (acc + a.cost)) 0

/-- The text right-aligned on `width` columns. -/
def padLeft (width : Nat) (s : String) : String :=
  String.ofList (List.replicate (width - s.length) ' ') ++ s

/-- The plan as written: `  0: (move a b)` and a line break for each action. -/
def display (p : Plan) : String :=
  String.join (p.actions.zipIdx.map fun (a, i) => padLeft 3 (toString i) ++ ": " ++ a.display ++ "\n")

end Plan

end Pddl
