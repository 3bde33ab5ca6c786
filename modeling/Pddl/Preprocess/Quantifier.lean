import Pddl.Condition.Dnf
import Pddl.Condition.Subst
import Pddl.Condition.Traverse
import Pddl.Problem.Basic
/-!
# Quantifier elimination and normal forms

A quantification over finitely many objects is the conjunction (`forall`) or disjunction
(`exists`) of its instances, one for each well-typed binding of its variables in the order of
`Problem.bindings`. Elimination goes bottom-up, so the body of a quantification is already free
of quantifiers when it is instantiated.

Normalizing a condition eliminates its quantifiers, puts it in negation normal form with
`simplify`, and, when asked, in disjunctive normal form. Normalizing a problem does this to the
preconditions and effects of its operators, the conditions of its axioms, and the conjunction
of its goals, which becomes the single goal.
-/

namespace Pddl

namespace Condition

/-- The node with a quantification replaced by the junction of its instances. -/
def expandQuantifier (pb : Problem) : Condition → Condition
  | .quant q vs body =>
      let instances := (pb.bindings vs).map fun t => body.bind vs t
      match q with
      | .all => .and instances
      | .any => .or instances
  | c => c

/-- The condition with every quantification replaced by its instances. -/
def eliminateQuantifiers (pb : Problem) (c : Condition) : Condition :=
  (Id.run (c.transformBottomUp fun d => pure (some (d.expandQuantifier pb)))).getD .tautology

/-- The quantifier-free negation normal form, in disjunctive normal form when `toDnf`. -/
def normalize (pb : Problem) (toDnf : Bool) (c : Condition) : Condition :=
  let s := (c.eliminateQuantifiers pb).simplify false
  if toDnf then s.dnf else s

end Condition

/-- Normalizes every condition of the problem; the goals become one condition. -/
def Problem.normalize (pb : Problem) (toDnf : Bool) : Problem :=
  { pb with
    operators := pb.operators.map fun op =>
      { op with pre := op.pre.normalize pb toDnf, eff := op.eff.normalize pb toDnf }
    axioms := pb.axioms.map fun ax => { ax with cond := ax.cond.normalize pb toDnf }
    goals := [(Condition.and pb.goals).normalize pb toDnf] }

end Pddl
