import Pddl.Condition.Subst
import Pddl.Condition.Traverse
import Pddl.Problem.Basic
/-!
# Action costs from `total-cost`

The numeric function `total-cost` usually only records what a plan costs: every operator
increases it by a constant, outside any condition or quantification, and nothing reads it. In
that pattern it is compiled away. Each operator gets the sum of its increases as its cost
(saturating at the 64-bit bounds), the increases are removed from its effect, and the function
and its initial values leave the problem.

Any other use of `total-cost` is a violation. With one or more violations the problem is kept
unchanged and every violation is reported as a warning, followed by a note that the function is
kept as an ordinary fluent.
-/

namespace Pddl

/-- A use of `total-cost` outside the pattern that can be compiled into operator costs. -/
inductive CostViolation where
  | inPrecondition (op : String)
  | notAnIncrease (op : String) (kind : EffectKind)
  | nonConstantIncrease (op : String)
  | inConditionalEffect (op : String)
  | inQuantifiedEffect (op : String)
  /-- The value of `total-cost` is used to change another fluent. -/
  | inExpression (op : String)
  /-- Used in the condition of an axiom of the named predicate, or in the goal. -/
  | inCondition (place : String)
  deriving DecidableEq, Inhabited

def CostViolation.message : CostViolation → String
  | .inPrecondition op => "(total-cost) is used in the precondition of " ++ op
  | .notAnIncrease op k => "(total-cost) is modified with " ++ k.keyword ++ " instead of increase in " ++ op
  | .nonConstantIncrease op => "(total-cost) is increased by a non-constant value in " ++ op
  | .inConditionalEffect op => "(total-cost) appears in a conditional effect of " ++ op
  | .inQuantifiedEffect op => "(total-cost) appears in a quantified effect of " ++ op
  | .inExpression op => "(total-cost) is used to compute the value of another fluent in " ++ op
  | .inCondition place => "(total-cost) is used in " ++ place

/-- The warning that closes the list of violations. -/
def keptAsFluentWarning : String :=
  "The (total-cost) function will be kept as a full-featured numeric fluent. This can affect performance."

/-- The cost gathered so far from an effect, and the violations met. -/
structure CostTally where
  cost : Int := 0
  violations : List CostViolation := []
  deriving DecidableEq, Inhabited

namespace CostTally

def flag (t : CostTally) (v : CostViolation) : CostTally :=
  { t with violations := t.violations ++ [v] }

mutual

/-- Adds the increases of `total-cost` in an effect of the operator `op` to the tally. Only the
conjunctions of the effect are entered; other nodes count when they mention `total-cost`. -/
def addEffect (op : String) : CostTally → Condition → CostTally
  | t, .numEffect e =>
      if e.target.fn == totalCostName then
        if e.kind != .increase then t.flag (.notAnIncrease op e.kind)
        else
          match e.value.constValue? with
          | some amount => { t with cost := saturatingAdd t.cost amount }
          | none => t.flag (.nonConstantIncrease op)
      else if e.references totalCostName then t.flag (.inExpression op)
      else t
  | t, .and cs => addEffects op t cs
  | t, .when p c =>
      if (Condition.when p c).references totalCostName then t.flag (.inConditionalEffect op) else t
  | t, .quant q vs c =>
      if (Condition.quant q vs c).references totalCostName then t.flag (.inQuantifiedEffect op)
      else t
  | t, _ => t

def addEffects (op : String) : CostTally → List Condition → CostTally
  | t, [] => t
  | t, c :: cs => addEffects op (addEffect op t c) cs

end

end CostTally

/-- The cost of each operator, in order, or every violation of the pattern. -/
def operatorCosts (pb : Problem) : Except (List CostViolation) (List Int) :=
  let perOp := pb.operators.map fun op =>
    let start : CostTally :=
      if op.pre.references totalCostName then { violations := [.inPrecondition op.name] } else {}
    CostTally.addEffect op.name start op.eff
  let axiomViolations := pb.axioms.filterMap fun ax =>
    if ax.cond.references totalCostName then some (CostViolation.inCondition ax.pred.name) else none
  let goalViolations :=
    if pb.goals.any (·.references totalCostName) then [CostViolation.inCondition "goal"] else []
  let violations := perOp.flatMap (·.violations) ++ axiomViolations ++ goalViolations
  if violations.isEmpty then .ok (perOp.map (·.cost)) else .error violations

/-- Whether the node changes `total-cost`. -/
def Condition.isCostEffect : Condition → Bool
  | .numEffect e => e.target.fn == totalCostName
  | _ => false

/-- The effect without its changes of `total-cost`. -/
def Condition.withoutCostEffects (c : Condition) : Condition :=
  (Id.run (c.transformBottomUp fun d => pure (if d.isCostEffect then none else some d))).getD .tautology

/-- Compiles `total-cost` into operator costs when it follows the pattern; otherwise keeps the
problem. The second component lists the warnings. -/
def Problem.extractCosts (pb : Problem) : Problem × List String :=
  match pb.findFunction? totalCostName with
  | none => (pb, [])
  | some _ =>
      match operatorCosts pb with
      | .error vs => (pb, vs.map (·.message) ++ [keptAsFluentWarning])
      | .ok costs =>
          let ops := (pb.operators.zip costs).map fun (op, cost) =>
            { op with cost := cost, eff := op.eff.withoutCostEffects }
          ({ pb with
              operators := ops
              functions := pb.functions.filter (·.name != totalCostName)
              initValues := pb.initValues.filter (·.1.fn != totalCostName) }, [])

end Pddl
