import Pddl.Config
import Pddl.Ground.Naive
import Pddl.Ground.Reachable
/-!
# Grounding

The ground model of a prepared lifted problem, built with the chosen strategy, and the warnings
given on the way. Both strategies have the same actions applicable in reachable states; the
naive one also keeps instances that can never be applied.
-/

namespace Pddl

/-- The ground model of the problem and the warnings, or why there is none. -/
def Problem.ground (pb : Problem) (strategy : GroundingStrategy) :
    Except GroundingError (GroundProblem × List String) :=
  let build := match strategy with
    | .naive => Grounder.groundNaive pb
    | .relaxedGraph => Grounder.groundReachable pb
  build.run' {}

end Pddl
