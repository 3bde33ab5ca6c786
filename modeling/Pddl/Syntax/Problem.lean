import Pddl.Syntax.Elaborate
/-!
# Reading problems

A problem term is an object whose fields are all optional. Its pieces reach the builder in a
fixed order: `types`, `objects`, `predicates`, `functions`, `operators`, `axioms`, `init`,
`init_values`, `goals`, `unchecked_goals`. Each piece is read just before it is added, so the
first refusal, of a malformed piece or of the builder, is the answer.

* A type is `[name, parent]`, the parent `null` or absent for none; further elements are
  ignored.
* An object is `[name, type]`, an initial value `[fluent, value]`.
* A predicate or function is `[name, params]`, without parameters when `params` is absent.
* An operator is an object `{name, params, pre, eff, cost, unchecked}`, read in this order; its
  conditions are read in the scope of its parameters. A missing condition is the empty
  conjunction and a missing cost is zero.
* An axiom is an object `{pred, cond, unchecked}`; its condition is read in the scope of its
  predicate's parameters.
* Initial atoms are literals, read like goals in an empty scope.

Operators, axioms and goals marked unchecked are added without the builder's checks.
-/

namespace Pddl

/-- Reads an optional condition, the empty conjunction when absent. -/
def readOptCondition (pb : Problem) (scope : Scope) : Option Term → Except Fault Condition
  | some t => readCondition pb scope t
  | none => pure .tautology

/-- Reads an operator: name, parameters, precondition, effect and cost, in this order. -/
def readOperator (pb : Problem) (t : Term) : Except Fault Operator := do
  let name ← (← t.need "name").asString
  let params ← readParamsField t "params"
  let pre ← readOptCondition pb params (t.field? "pre")
  let eff ← readOptCondition pb params (t.field? "eff")
  let cost ← match t.field? "cost" with
    | some c => c.asInt64
    | none => pure 0
  pure ⟨name, params, pre, eff, cost⟩

/-- Reads an axiom `{pred, cond}` of a declared predicate. -/
def readAxiom (pb : Problem) (t : Term) : Except Fault Axiom := do
  let name ← (← t.need "pred").asString
  let some pred := pb.findPredicate? name | throw (.model (.unknownPredicate name))
  pure (Axiom.make pred (← readOptCondition pb pred.params (t.field? "cond")))

/-- Reads a predicate or function `[name, params]`. -/
def readSchema (t : Term) : Except Fault (String × List Param) := do
  let ts ← t.asList
  let name ← (Term.entry ts 0).asString
  match ts with
  | _ :: ps :: _ => pure (name, ← readParams ps)
  | _ => pure (name, [])

/-- Reads an initial atom: a condition that is a literal. -/
def readInit (pb : Problem) (scope : Scope) (t : Term) : Except Fault Literal := do
  match ← readCondition pb scope t with
  | .lit l => pure l
  | c => throw (.malformed ("expected a literal, got " ++ c.display))

namespace Problem

/-- Adds a type `[name, parent]`. -/
def readType (pb : Problem) (t : Term) : Except Fault Problem := do
  let ts ← t.asList
  let name ← (Term.entry ts 0).asString
  let parent ← match Term.entry ts 1 with
    | .null => pure none
    | p => some <$> p.asString
  liftModel (pb.exec (addType name parent))

/-- Adds an object `[name, type]`. -/
def readObject (pb : Problem) (t : Term) : Except Fault Problem := do
  let (n, ty) ← t.asPair "an object is [name, type]"
  let n ← n.asString
  liftModel (pb.exec (addObject n (← ty.asString)))

def readPredicate (pb : Problem) (t : Term) : Except Fault Problem := do
  let (n, ps) ← readSchema t
  liftModel (pb.exec (addPredicate n ps))

def readFunction (pb : Problem) (t : Term) : Except Fault Problem := do
  let (n, ps) ← readSchema t
  liftModel (pb.exec (addFunction n ps))

/-- Adds an operator, unchecked when it is marked so. -/
def readOperatorEntry (pb : Problem) (t : Term) : Except Fault Problem := do
  let op ← readOperator pb t
  if t.flag "unchecked" false then pure { pb with operators := pb.operators ++ [op] }
  else liftModel (pb.exec (addOperator op))

/-- Adds an axiom, unchecked when it is marked so. -/
def readAxiomEntry (pb : Problem) (t : Term) : Except Fault Problem := do
  let ax ← readAxiom pb t
  if t.flag "unchecked" false then pure { pb with axioms := pb.axioms ++ [ax] }
  else liftModel (pb.exec (addAxiom ax))

def readInitAtom (pb : Problem) (t : Term) : Except Fault Problem := do
  liftModel (pb.exec (addInit (← readInit pb [] t)))

/-- Sets the initial value of a fluent, `[fluent, value]`. -/
def readInitValue (pb : Problem) (t : Term) : Except Fault Problem := do
  let (f, v) ← t.asPair "an initial value is [fluent, value]"
  let f ← readFluent pb [] f
  liftModel (pb.exec (setInitValue f (← v.asInt64)))

def readGoal (pb : Problem) (t : Term) : Except Fault Problem := do
  liftModel (pb.exec (addGoal (← readCondition pb [] t)))

def readUncheckedGoal (pb : Problem) (t : Term) : Except Fault Problem := do
  let g ← readCondition pb [] t
  pure { pb with goals := pb.goals ++ [g] }

/-- The problem a term describes. -/
def read (t : Term) : Except Fault Problem := do
  let pb ← (← t.items "types").foldlM readType {}
  let pb ← (← t.items "objects").foldlM readObject pb
  let pb ← (← t.items "predicates").foldlM readPredicate pb
  let pb ← (← t.items "functions").foldlM readFunction pb
  let pb ← (← t.items "operators").foldlM readOperatorEntry pb
  let pb ← (← t.items "axioms").foldlM readAxiomEntry pb
  let pb ← (← t.items "init").foldlM readInitAtom pb
  let pb ← (← t.items "init_values").foldlM readInitValue pb
  let pb ← (← t.items "goals").foldlM readGoal pb
  (← t.items "unchecked_goals").foldlM readUncheckedGoal pb

end Problem

end Pddl
