import Pddl.Model.TypeHierarchy
import Pddl.Condition.Basic
import Pddl.Combinations.Product
/-!
# Lifted problems

A lifted problem is a domain (types, predicates, numeric functions, operators, axioms defining
derived predicates) together with an instance (objects, initial atoms and fluent values, goals).
Objects, predicates and functions are kept in declaration order. Objects are also indexed by name,
each name with the position of its object. The built-in equality predicate comes first among the
predicates from the start; the declared predicates are the others.
-/

namespace Pddl

/-- A parameterized action schema. The default precondition and effect are empty and the
default cost is zero. -/
structure Operator where
  name : String
  params : List Param
  pre : Condition := .and []
  eff : Condition := .and []
  cost : Int := 0
  deriving DecidableEq, Inhabited

/-- Definition of a derived predicate: an atom of `pred` holds whenever `cond` holds, with the
predicate's parameters as the free variables of `cond`. -/
structure Axiom where
  pred : Predicate
  params : List Param
  cond : Condition
  deriving DecidableEq, Inhabited

/-- The axiom deriving `pred` from `cond`, over the parameters of the predicate. -/
def Axiom.make (pred : Predicate) (cond : Condition) : Axiom := ⟨pred, pred.params, cond⟩

/-- A lifted planning problem. -/
structure Problem where
  types : TypeHierarchy := {}
  objects : List Object := []
  /-- The position of the object of each name. -/
  objectIndex : List (String × Nat) := []
  /-- The predicates, the built-in equality first. -/
  predicates : List Predicate := [Predicate.equality]
  functions : List NumFunction := []
  operators : List Operator := []
  axioms : List Axiom := []
  /-- Ground atoms that are true in the initial state. All others are false. -/
  init : List Literal := []
  /-- Initial values of ground numeric fluents. -/
  initValues : List (FluentApp × Int) := []
  /-- Goal conditions, implicitly conjoined. -/
  goals : List Condition := []
  deriving Inhabited

namespace Problem

/-- The first object of the given name. -/
def findObject? (pb : Problem) (name : String) : Option Object :=
  pb.objects.find? (·.name == name)

/-- The object the index gives for the name. -/
def indexedObject? (pb : Problem) (name : String) : Option Object :=
  (pb.objectIndex.lookup name).bind fun i => pb.objects[i]?

/-- The predicate of the given name, equality included. -/
def findPredicate? (pb : Problem) (name : String) : Option Predicate :=
  pb.predicates.find? (·.name == name)

/-- The predicates but the built-in equality. -/
def declaredPredicates (pb : Problem) : List Predicate :=
  pb.predicates.filter fun p => !p.isEquality

def findFunction? (pb : Problem) (name : String) : Option NumFunction :=
  pb.functions.find? (·.name == name)

/-- The objects whose type is `t` or one of its subtypes, in declaration order. -/
def instancesOf (pb : Problem) (t : String) : List Object :=
  pb.objects.filter fun o => pb.types.isSubtype o.type t

/-- The candidate values of each variable: the objects of a compatible type, as constants. -/
def candidates (pb : Problem) (vars : List Param) : List (List Argument) :=
  vars.map fun v => (pb.instancesOf v.type).map .const

/-- The well-typed bindings of the variables, the last variable changing fastest. -/
def bindings (pb : Problem) (vars : List Param) : List (List Argument) :=
  cartesian (pb.candidates vars)

end Problem

/-- The parameter list of an operator: `?x - t ?y - u`. -/
def displayParams (ps : List Param) : String :=
  " ".intercalate (ps.map fun p => "?" ++ p.typed)

/-- The operator in PDDL syntax; the cost line is written only for a nonzero cost. -/
def Operator.display (op : Operator) : String :=
  "(:action " ++ op.name ++ "\n" ++
  "  :parameters (" ++ displayParams op.params ++ ")\n" ++
  (if op.cost ≠ 0 then "  :cost " ++ toString op.cost ++ "\n" else "") ++
  "  :precondition " ++ op.pre.display ++ "\n" ++
  "  :effect " ++ op.eff.display ++ ")"

/-- The axiom in PDDL syntax: `(:derived (p ?x - t) cond)`. -/
def Axiom.display (ax : Axiom) : String :=
  "(:derived (" ++ ax.pred.name ++ String.join (ax.params.map fun p => " ?" ++ p.typed) ++ ") " ++
  ax.cond.display ++ ")"

/-- The texts of the elements of a list, concatenated. -/
def joinMap {α : Type} (f : α → String) (xs : List α) : String := String.join (xs.map f)

/-- A listing of the whole problem, section by section. -/
def Problem.display (pb : Problem) : String :=
  let lines {α : Type} := @joinMap α
  "Objects:" ++ lines (fun o => "\n  " ++ o.name ++ ": " ++ o.type) pb.objects ++ "\n" ++
  "\nPredicates:" ++ lines (fun p => "\n  " ++ p.display) pb.declaredPredicates ++
  (if pb.functions.isEmpty then ""
   else "\nFunctions:" ++ lines (fun f => "\n  " ++ f.display) pb.functions) ++
  "\n\nOperators:" ++ lines (fun op => "\n" ++ op.display) pb.operators ++
  (if pb.axioms.isEmpty then ""
   else "\n\nAxioms:" ++ lines (fun ax => "\n  " ++ ax.display) pb.axioms) ++
  "\n\nInit:" ++ lines (fun l => "\n  " ++ l.display) pb.init ++
  lines (fun (fv : FluentApp × Int) => "\n  (= " ++ fv.1.display ++ " " ++ toString fv.2 ++ ")")
    pb.initValues ++
  "\n\nGoals:" ++ lines (fun g => "\n  " ++ g.display) pb.goals

end Pddl
