import Pddl.Condition.Basic
/-!
# Grounding errors

Parts of a lifted problem that have no counterpart in a ground model: numeric conditions,
effects that are disjunctions or existential quantifications, elements that are out of place
(a literal with variables left, a negation not in front of an atom), and derived predicates
that depend negatively on themselves. The context is the operator or derived predicate the
element comes from, or `init` or `goal`.

An element out of place is reported by its text. When it is a literal that the atom table is
asked for, the error keeps the literal itself (`malformedLiteral`); it is reported exactly as any
other element out of place, so the two differ only in what a proof can tell about them.
-/

namespace Pddl

inductive GroundingError where
  | numericCondition (condition context : String)
  | disjunctiveEffect (effect context : String)
  | malformed (element context : String)
  /-- A literal with a variable left, met where the number of its atom was asked for. -/
  | malformedLiteral (literal : Literal) (context : String)
  | notStratifiable (predicate : String)
  deriving DecidableEq, Inhabited

namespace GroundingError

def message : GroundingError → String
  | .numericCondition c ctx => "numeric condition " ++ c ++ " in " ++ ctx ++ " is not supported by the ground model"
  | .disjunctiveEffect e ctx => "disjunctive effect " ++ e ++ " in " ++ ctx ++ " is not supported by the ground model"
  | .malformed e ctx => "unexpected element " ++ e ++ " in " ++ ctx
  | .malformedLiteral l ctx => "unexpected element " ++ l.display ++ " in " ++ ctx
  | .notStratifiable p => "derived predicate " ++ p ++ " depends negatively on itself"

/-- The name of the kind of error. -/
def kind : GroundingError → String
  | .numericCondition .. => "NumericCondition"
  | .disjunctiveEffect .. => "DisjunctiveEffect"
  | .malformed .. => "Malformed"
  | .malformedLiteral .. => "Malformed"
  | .notStratifiable _ => "NotStratifiable"

end GroundingError

end Pddl
