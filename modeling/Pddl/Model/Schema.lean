/-!
# Objects, parameters and schemas

The vocabulary of a planning problem: typed objects (the constants), typed parameters (the
variables), and the schemas of boolean predicates and numeric functions.

A parameter is written `x` in a condition and `x - type` in a parameter list. A predicate is
written with its typed parameters, `on(x - block, y - block)`.
-/

namespace Pddl

/-- A constant of the problem: a named object of a given type. -/
structure Object where
  name : String
  type : String
  deriving DecidableEq, Inhabited

/-- A typed variable: an operator parameter, a quantified variable or a predicate parameter. -/
structure Param where
  name : String
  type : String
  deriving DecidableEq, Inhabited

/-- A parameter with its type, as in a parameter list: `x - block`. -/
def Param.typed (p : Param) : String := p.name ++ " - " ++ p.type

/-- Name of the built-in equality predicate over objects. -/
def equalityName : String := "="

/-- Schema of a boolean relation. -/
structure Predicate where
  name : String
  params : List Param
  deriving DecidableEq, Inhabited

namespace Predicate

/-- The built-in `=` predicate, accepting any two objects. -/
def equality : Predicate := ⟨equalityName, [⟨"a", "object"⟩, ⟨"b", "object"⟩]⟩

def isEquality (p : Predicate) : Bool := p.name == equalityName

/-- The predicate with its typed parameters: `on(x - block, y - block)`. -/
def display (p : Predicate) : String :=
  p.name ++ "(" ++ ", ".intercalate (p.params.map Param.typed) ++ ")"

end Predicate

/-- Schema of a numeric fluent such as `total-cost` or `fuel`. -/
structure NumFunction where
  name : String
  params : List Param
  deriving DecidableEq, Inhabited

/-- The function with its typed parameters: `total-cost()`, `fuel(l - loc)`. -/
def NumFunction.display (f : NumFunction) : String :=
  f.name ++ "(" ++ ", ".intercalate (f.params.map Param.typed) ++ ")"

/-- Name of the numeric fluent holding the accumulated cost of a plan. -/
def totalCostName : String := "total-cost"

end Pddl
