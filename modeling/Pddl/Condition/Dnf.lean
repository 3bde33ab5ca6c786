import Pddl.Condition.Simplify
import Pddl.Combinations.Product
/-!
# Disjunctive normal form

`c.dnf` distributes conjunction over disjunction. On a condition in negation normal form (a
result of `simplify`) it yields a disjunction of conjunctions of literals, or a single
conjunction or literal when there is one disjunct. The parts of negations, quantifications and
conditional effects are converted in place, so that conditional prerequisites can be split.

The disjuncts of a conjunction come out in the order of the cartesian product of the
alternatives of its members, the first member varying slowest.
-/

namespace Pddl

namespace Condition

/-- The disjuncts of a disjunction, or the condition itself. -/
def disjuncts : Condition → List Condition
  | .or ds => ds
  | c => [c]

mutual

/-- The disjunctive normal form of the condition. -/
def dnf : Condition → Condition
  | .or cs => Junction.disj.normalize (dnfAll cs)
  | .and cs =>
      if cs.isEmpty then tautology
      else
        Junction.disj.normalize
          ((cartesian ((dnfAll cs).map disjuncts)).map Junction.conj.normalize)
  | .not c => .not (dnf c)
  | .quant q vs c => .quant q vs (dnf c)
  | .when p c => .when (dnf p) (dnf c)
  | .lit l => .lit l
  | .numEffect e => .numEffect e
  | .compare c => .compare c

def dnfAll : List Condition → List Condition
  | [] => []
  | c :: cs => dnf c :: dnfAll cs

end

end Condition

end Pddl
