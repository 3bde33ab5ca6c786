import Pddl.Condition.Basic
/-!
# Numeric expressions: constant folding and comparisons

Constants of numeric expressions are 64-bit signed integers. Folding an expression that has no
fluent evaluates it bottom-up over the integers and fails as soon as a node leaves the 64-bit
range or divides by zero; division truncates toward zero. So `(/ 1 0)`, `(* 2^62 4)` and
`(/ -2^63 -1)` have no value.

Negating a comparator gives the comparator that holds exactly when it does not.
-/

namespace Pddl

/-- The least 64-bit signed integer. -/
def minInt64 : Int := -(Int.pow 2 63)

/-- The greatest 64-bit signed integer. -/
def maxInt64 : Int := Int.pow 2 63 - 1

/-- Whether an integer fits in 64 signed bits. -/
def fitsInt64 (v : Int) : Bool := decide (minInt64 ≤ v ∧ v ≤ maxInt64)

/-- The value if it fits in 64 signed bits. -/
def checkedInt64 (v : Int) : Option Int := if fitsInt64 v then some v else none

/-- The sum clamped to the 64-bit range. -/
def saturatingAdd (a b : Int) : Int := max minInt64 (min maxInt64 (a + b))

/-- The operation on two 64-bit values, or `none` on overflow or division by zero. Division
truncates toward zero. -/
def ArithOp.apply? : ArithOp → Int → Int → Option Int
  | .plus, a, b => checkedInt64 (a + b)
  | .minus, a, b => checkedInt64 (a - b)
  | .times, a, b => checkedInt64 (a * b)
  | .div, a, b => if b = 0 then none else checkedInt64 (a.tdiv b)

/-- The value of an expression made of constants only, folded with checked arithmetic. -/
def NumExpr.constValue? : NumExpr → Option Int
  | .const v => some v
  | .fluent _ => none
  | .op o l r =>
      match l.constValue?, r.constValue? with
      | some a, some b => o.apply? a b
      | _, _ => none

/-- The arguments of the fluents of an expression, left to right. -/
def NumExpr.arguments : NumExpr → List Argument
  | .const _ => []
  | .fluent f => f.args
  | .op _ l r => l.arguments ++ r.arguments

/-- Whether the expression uses the function named `fn`. -/
def NumExpr.references (fn : String) : NumExpr → Bool
  | .const _ => false
  | .fluent f => f.fn == fn
  | .op _ l r => l.references fn || r.references fn

namespace Comparator

/-- The comparator holding exactly when this one does not. -/
def negated : Comparator → Comparator
  | .lt => .ge
  | .le => .gt
  | .eq => .ne
  | .ne => .eq
  | .ge => .lt
  | .gt => .le

def holds : Comparator → Int → Int → Bool
  | .lt, a, b => decide (a < b)
  | .le, a, b => decide (a ≤ b)
  | .eq, a, b => decide (a = b)
  | .ne, a, b => decide (a ≠ b)
  | .ge, a, b => decide (a ≥ b)
  | .gt, a, b => decide (a > b)

end Comparator

namespace Comparison

def negated (c : Comparison) : Comparison := { c with cmp := c.cmp.negated }

/-- The truth value of the comparison when both sides fold to constants. -/
def constValue? (c : Comparison) : Option Bool :=
  match c.lhs.constValue?, c.rhs.constValue? with
  | some a, some b => some (c.cmp.holds a b)
  | _, _ => none

def references (fn : String) (c : Comparison) : Bool :=
  c.lhs.references fn || c.rhs.references fn

end Comparison

/-- Whether the numeric effect changes or reads the function named `fn`. -/
def NumericEffect.references (fn : String) (e : NumericEffect) : Bool :=
  e.target.fn == fn || e.value.references fn

end Pddl
