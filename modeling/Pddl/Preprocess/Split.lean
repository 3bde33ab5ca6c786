import Pddl.Problem.Basic
/-!
# Splitting disjunctive operators

In disjunctive normal form a precondition is a disjunction of conjunctions, and so is the
prerequisite of a conditional effect. An operator whose precondition is a disjunction becomes
one operator per disjunct; the `i`-th is named `op$i$`, counting from 1, and an empty
disjunction leaves no operator. A conditional effect whose prerequisite is a disjunction
becomes one conditional effect per disjunct, when it is the whole effect or a member of the
effect's top-level conjunction.
-/

namespace Pddl

/-- The conditional effects of `(when pre eff)`, one per disjunct of a disjunctive `pre`. -/
def splitConditional (pre eff : Condition) : List Condition :=
  match pre with
  | .or ds => ds.map fun d => .when d eff
  | p => [.when p eff]

/-- The effect with its disjunctive conditional effects split. -/
def splitEffect : Condition → Condition
  | .when p e =>
      match splitConditional p e with
      | [c] => c
      | parts => .and parts
  | .and cs =>
      .and (cs.flatMap fun c =>
        match c with
        | .when p e => splitConditional p e
        | other => [other])
  | c => c

/-- The operators with one disjunct each of the precondition, and split effects. -/
def Operator.split (op : Operator) : List Operator :=
  let eff := splitEffect op.eff
  match op.pre with
  | .or ds =>
      ds.zipIdx.map fun (d, i) =>
        { op with name := op.name ++ "$" ++ toString (i + 1) ++ "$", pre := d, eff := eff }
  | _ => [{ op with eff := eff }]

/-- Splits every operator, keeping the order. -/
def splitOperators (ops : List Operator) : List Operator :=
  ops.flatMap Operator.split

end Pddl
