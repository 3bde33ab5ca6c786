import Pddl.Problem.Basic
import Pddl.Model.Error
import Pddl.Condition.Subst
/-!
# Building a problem

A problem is built incrementally. Each method of the builder reads the problem, checks that the
new piece only refers to what is already declared, and refuses it with a `ModelError` otherwise;
only when every check has passed does it change the problem. The methods run in `BuildM`, a state
monad over the problem whose refusals keep the state they were raised in.

* An object needs a declared type; redeclaring it with the same type changes nothing. A new
  object is indexed at its position, then appended.
* Parameters of predicates, functions and operators need declared types.
* A literal or fluent needs a declared predicate or function, the right number of arguments,
  and arguments whose types are subtypes of the parameter types.
* Every free variable of an operator's precondition and effect must be one of its parameters,
  of an axiom's condition one of the predicate's parameters; goals must be closed.
* The initial state holds positive ground literals only, none twice, literals being compared as
  the planner compares them (`Literal.sameAs`); setting the value of a fluent again replaces it.
-/

namespace Pddl

/-- A method of the builder: it reads and changes the problem, or refuses. -/
abbrev BuildM := EStateM ModelError Problem

namespace Problem

def addType (name : String) (parent : Option String) : BuildM Unit :=
  modify fun pb => { pb with types := pb.types.addType name parent }

/-- Refuses a type that is not declared. -/
def checkType (pb : Problem) (t : String) : Except ModelError Unit :=
  if pb.types.contains t then pure () else throw (.unknownType t)

def checkParams (pb : Problem) (ps : List Param) : Except ModelError Unit :=
  ps.forM fun p => pb.checkType p.type

/-- Declares an object; an exact redeclaration changes nothing. -/
def addObject (name type : String) : BuildM Unit := do
  let pb ← get
  liftExcept (pb.checkType type)
  match pb.indexedObject? name with
  | some prev =>
      if prev.type = type then pure () else throw (.duplicateObject name prev.type type)
  | none =>
      modify fun pb => { pb with objectIndex := pb.objectIndex ++ [(name, pb.objects.length)] }
      modify fun pb => { pb with objects := pb.objects ++ [⟨name, type⟩] }

/-- The constant argument naming an object, found through the index. -/
def object (pb : Problem) (name : String) : Except ModelError Argument :=
  match pb.indexedObject? name with
  | some o => pure (.const o)
  | none => throw (.unknownObject name)

def addPredicate (name : String) (params : List Param) : BuildM Unit := do
  let pb ← get
  liftExcept (pb.checkParams params)
  if (pb.findPredicate? name).isSome then throw (.duplicatePredicate name)
  modify fun pb => { pb with predicates := pb.predicates ++ [⟨name, params⟩] }

def addFunction (name : String) (params : List Param) : BuildM Unit := do
  let pb ← get
  liftExcept (pb.checkParams params)
  if (pb.findFunction? name).isSome then throw (.duplicateFunction name)
  modify fun pb => { pb with functions := pb.functions ++ [⟨name, params⟩] }

/-- Checks the number of arguments, then that each one has a subtype of its parameter's type. -/
def checkArguments (pb : Problem) (name : String) (params : List Param) (args : List Argument) :
    Except ModelError Unit := do
  if params.length ≠ args.length then throw (.arity name params.length args.length)
  (params.zip args).forM fun (p, a) =>
    if pb.types.isSubtype a.type p.type then pure ()
    else throw (.incompatibleType name a.name a.type p.type)

/-- The positive literal of the predicate `name` on the given arguments. -/
def literal (pb : Problem) (name : String) (args : List Argument) : Except ModelError Literal := do
  let some pred := pb.findPredicate? name | throw (.unknownPredicate name)
  pb.checkArguments pred.name pred.params args
  pure ⟨pred.name, args, false⟩

/-- The application of the function `name` to the given arguments. -/
def fluent (pb : Problem) (name : String) (args : List Argument) : Except ModelError FluentApp := do
  let some fn := pb.findFunction? name | throw (.unknownFunction name)
  pb.checkArguments fn.name fn.params args
  pure ⟨fn.name, args⟩

end Problem

/-- Refuses the first free variable of the condition that is not one of the parameters. -/
def checkBound (context : String) (params : List Param) (c : Condition) : Except ModelError Unit :=
  match c.freeVars.find? (fun v => params.all (·.name != v.name)) with
  | some v => throw (.unboundVariable v.name context)
  | none => pure ()

namespace Problem

def addOperator (op : Operator) : BuildM Unit := do
  let pb ← get
  liftExcept (pb.checkParams op.params)
  liftExcept (checkBound op.name op.params op.pre)
  liftExcept (checkBound op.name op.params op.eff)
  modify fun pb => { pb with operators := pb.operators ++ [op] }

def addAxiom (ax : Axiom) : BuildM Unit := do
  liftExcept (checkBound ax.pred.name ax.params ax.cond)
  modify fun pb => { pb with axioms := pb.axioms ++ [ax] }

/-- Declares a ground atom true in the initial state, unless the same literal is there. -/
def addInit (l : Literal) : BuildM Unit := do
  if !l.isGround || l.negated then throw (.nonGroundInit l.display)
  let pb ← get
  if pb.init.any (·.sameAs l) then pure ()
  else modify fun pb => { pb with init := pb.init ++ [l] }

/-- The entries with the value of the first one of the same fluent replaced, if there is one. -/
def setFirstValue (f : FluentApp) (v : Int) :
    List (FluentApp × Int) → Option (List (FluentApp × Int))
  | [] => none
  | e :: es => if e.1.sameAs f then some ((e.1, v) :: es) else (setFirstValue f v es).map (e :: ·)

/-- Sets the initial value of a ground fluent, replacing an earlier value. -/
def setInitValue (f : FluentApp) (v : Int) : BuildM Unit := do
  if !f.isGround then throw (.nonGroundInit f.display)
  let pb ← get
  match setFirstValue f v pb.initValues with
  | some vs => modify fun pb => { pb with initValues := vs }
  | none => modify fun pb => { pb with initValues := pb.initValues ++ [(f, v)] }

def addGoal (g : Condition) : BuildM Unit := do
  liftExcept (checkBound "goal" [] g)
  modify fun pb => { pb with goals := pb.goals ++ [g] }

/-- Runs a method of the builder on the problem: the problem it leaves, or its refusal. -/
def exec (pb : Problem) (x : BuildM Unit) : Except ModelError Problem :=
  match x.run pb with
  | .ok _ pb' => .ok pb'
  | .error e _ => .error e

/-- Checks that every condition of the problem is closed by its parameters. -/
def check (pb : Problem) : Except ModelError Unit := do
  pb.operators.forM fun op => do
    checkBound op.name op.params op.pre
    checkBound op.name op.params op.eff
  pb.axioms.forM fun ax => checkBound ax.pred.name ax.params ax.cond
  pb.goals.forM fun g => checkBound "goal" [] g

end Problem

end Pddl
