import Pddl.Config
import Pddl.Preprocess.Cost
import Pddl.Preprocess.Quantifier
import Pddl.Preprocess.Split
/-!
# Preparing a lifted problem for grounding

The preparation compiles `total-cost` into operator costs, eliminates quantifiers and puts every
condition in negation normal form. Unless disjunctions are kept, conditions are also put in
disjunctive normal form and the disjunctive operators and conditional effects are split.
-/

namespace Pddl

/-- The prepared problem and the warnings given on the way. -/
def Problem.preprocess (cfg : Config) (pb : Problem) : Problem × List String :=
  let toDnf := !cfg.keepDisjunctions
  let (pb, warnings) := pb.extractCosts
  let pb := pb.normalize toDnf
  let pb := if toDnf then { pb with operators := splitOperators pb.operators } else pb
  (pb, warnings)

end Pddl
