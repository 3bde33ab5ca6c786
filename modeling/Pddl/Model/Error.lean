/-!
# Model errors

The ways in which a piece of a lifted problem can be refused by the builder: a reference to
something undeclared, a duplicate declaration, a wrong number or type of arguments, a variable
that nothing binds, or an initial-state element that is not ground.
-/

namespace Pddl

/-- Why the builder refuses a piece of a problem. -/
inductive ModelError where
  | unknownType (name : String)
  | duplicateObject (name previous declared : String)
  | unknownObject (name : String)
  | duplicatePredicate (name : String)
  | unknownPredicate (name : String)
  | duplicateFunction (name : String)
  | unknownFunction (name : String)
  | arity (name : String) (expected got : Nat)
  | incompatibleType (name arg found expected : String)
  | unboundVariable (var context : String)
  | nonGroundInit (element : String)
  deriving DecidableEq, Inhabited

namespace ModelError

/-- The text of the error. -/
def message : ModelError → String
  | .unknownType n => "unknown type " ++ n
  | .duplicateObject n a b => "duplicate object " ++ n ++ " (declared with types " ++ a ++ " and " ++ b ++ ")"
  | .unknownObject n => "unknown object " ++ n
  | .duplicatePredicate n => "duplicate predicate " ++ n
  | .unknownPredicate n => "unknown predicate " ++ n
  | .duplicateFunction n => "duplicate function " ++ n
  | .unknownFunction n => "unknown function " ++ n
  | .arity n e g => n ++ " expects " ++ toString e ++ " arguments but got " ++ toString g
  | .incompatibleType n a f e =>
      "argument " ++ a ++ " of " ++ n ++ " has type " ++ f ++ " but type " ++ e ++ " was expected"
  | .unboundVariable v c => "variable " ++ v ++ " is not bound in " ++ c
  | .nonGroundInit e => "initial state literal " ++ e ++ " is not ground"

/-- The name of the kind of error, as in `UnknownObject`. -/
def kind : ModelError → String
  | .unknownType .. => "UnknownType"
  | .duplicateObject .. => "DuplicateObject"
  | .unknownObject .. => "UnknownObject"
  | .duplicatePredicate .. => "DuplicatePredicate"
  | .unknownPredicate .. => "UnknownPredicate"
  | .duplicateFunction .. => "DuplicateFunction"
  | .unknownFunction .. => "UnknownFunction"
  | .arity .. => "Arity"
  | .incompatibleType .. => "IncompatibleType"
  | .unboundVariable .. => "UnboundVariable"
  | .nonGroundInit .. => "NonGroundInit"

end ModelError

end Pddl
