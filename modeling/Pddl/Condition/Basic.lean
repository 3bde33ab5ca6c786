import Pddl.Model.Schema
/-!
# Lifted conditions

Preconditions, effects, goals and the definitions of derived predicates are all terms of one
type, `Condition`: literals, conjunctions and disjunctions, explicit negations, quantifications,
conditional effects, numeric effects and numeric comparisons.

`Condition.and []` is the constant true (and the empty effect), `Condition.or []` the constant
false. Every piece has a printer in PDDL syntax, for example `(and (on ?x a) (not (clear b)))`.
-/

namespace Pddl

/-- Argument of a literal or of a fluent: a constant object or a variable. -/
inductive Argument where
  | const (o : Object)
  | var (p : Param)
  deriving DecidableEq, Inhabited

namespace Argument

/-- The name of the object or of the variable. -/
def name : Argument → String
  | .const o => o.name
  | .var p => p.name

/-- The type of the object or of the variable. -/
def type : Argument → String
  | .const o => o.type
  | .var p => p.type

def isConst : Argument → Bool
  | .const _ => true
  | .var _ => false

/-- An object is written by its name, a variable with a leading `?`. -/
def display : Argument → String
  | .const o => o.name
  | .var p => "?" ++ p.name

/-- Arguments as the planner compares them: objects by their names only, variables by name and
type. -/
def sameAs : Argument → Argument → Bool
  | .const o, .const o' => o.name == o'.name
  | .var p, .var p' => p == p'
  | _, _ => false

/-- Lists of arguments of one length whose arguments are the same one by one. -/
def sameList : List Argument → List Argument → Bool
  | [], [] => true
  | a :: as, b :: bs => a.sameAs b && sameList as bs
  | _, _ => false

end Argument

/-- The arguments written after a head, each preceded by a space. -/
def displayArgs (args : List Argument) : String :=
  String.join (args.map fun a => " " ++ a.display)

/-- A predicate applied to arguments, possibly negated. -/
structure Literal where
  pred : String
  args : List Argument
  negated : Bool := false
  deriving DecidableEq, Inhabited

namespace Literal

/-- The same literal with the opposite sign. -/
def negate (l : Literal) : Literal := { l with negated := !l.negated }

def isGround (l : Literal) : Bool := l.args.all Argument.isConst

/-- `(p a ?x)`, or `(not (p a ?x))` when negated. -/
def display (l : Literal) : String :=
  let atom := "(" ++ l.pred ++ displayArgs l.args ++ ")"
  if l.negated then "(not " ++ atom ++ ")" else atom

/-- Literals as the planner compares them: the predicate by name, the arguments as in
`Argument.sameAs`, and the sign. -/
def sameAs (l l' : Literal) : Bool :=
  l.pred == l'.pred && Argument.sameList l.args l'.args && l.negated == l'.negated

end Literal

/-- A numeric function applied to arguments, as in `(fuel ?truck)`. -/
structure FluentApp where
  fn : String
  args : List Argument
  deriving DecidableEq, Inhabited

def FluentApp.isGround (f : FluentApp) : Bool := f.args.all Argument.isConst

def FluentApp.display (f : FluentApp) : String := "(" ++ f.fn ++ displayArgs f.args ++ ")"

/-- Fluents as the planner compares them: the function by name, the arguments as in
`Argument.sameAs`. -/
def FluentApp.sameAs (f f' : FluentApp) : Bool := f.fn == f'.fn && Argument.sameList f.args f'.args

/-- The four operations of numeric expressions. -/
inductive ArithOp where
  | plus
  | minus
  | times
  | div
  deriving DecidableEq, Inhabited

def ArithOp.symbol : ArithOp → String
  | .plus => "+"
  | .minus => "-"
  | .times => "*"
  | .div => "/"

/-- The value term of a numeric effect or comparison. Constants are 64-bit signed integers. -/
inductive NumExpr where
  | const (v : Int)
  | fluent (f : FluentApp)
  | op (o : ArithOp) (lhs rhs : NumExpr)
  deriving DecidableEq, Inhabited

def NumExpr.display : NumExpr → String
  | .const v => toString v
  | .fluent f => f.display
  | .op o l r => "(" ++ o.symbol ++ " " ++ l.display ++ " " ++ r.display ++ ")"

/-- How a numeric effect changes its fluent. -/
inductive EffectKind where
  | assign
  | increase
  | decrease
  | scaleUp
  | scaleDown
  deriving DecidableEq, Inhabited

def EffectKind.keyword : EffectKind → String
  | .assign => "assign"
  | .increase => "increase"
  | .decrease => "decrease"
  | .scaleUp => "scale-up"
  | .scaleDown => "scale-down"

/-- A change of a numeric fluent, as in `(increase (total-cost) 5)`. -/
structure NumericEffect where
  target : FluentApp
  kind : EffectKind
  value : NumExpr
  deriving DecidableEq, Inhabited

def NumericEffect.display (e : NumericEffect) : String :=
  "(" ++ e.kind.keyword ++ " " ++ e.target.display ++ " " ++ e.value.display ++ ")"

/-- Comparison operators between numeric expressions. -/
inductive Comparator where
  | lt
  | le
  | eq
  | ne
  | ge
  | gt
  deriving DecidableEq, Inhabited

def Comparator.symbol : Comparator → String
  | .lt => "<"
  | .le => "<="
  | .eq => "="
  | .ne => "!="
  | .ge => ">="
  | .gt => ">"

/-- A numeric comparison in a condition, as in `(>= (fuel ?t) 3)`. -/
structure Comparison where
  cmp : Comparator
  lhs : NumExpr
  rhs : NumExpr
  deriving DecidableEq, Inhabited

def Comparison.display (c : Comparison) : String :=
  "(" ++ c.cmp.symbol ++ " " ++ c.lhs.display ++ " " ++ c.rhs.display ++ ")"

/-- Universal or existential quantification. -/
inductive Quantifier where
  | all
  | any
  deriving DecidableEq, Inhabited

namespace Quantifier

/-- The quantifier obtained by pushing a negation through this one. -/
def dual : Quantifier → Quantifier
  | .all => .any
  | .any => .all

def keyword : Quantifier → String
  | .all => "forall"
  | .any => "exists"

end Quantifier

/-- A lifted condition or effect. -/
inductive Condition where
  | lit (l : Literal)
  | and (cs : List Condition)
  | or (cs : List Condition)
  | not (c : Condition)
  | quant (q : Quantifier) (vars : List Param) (body : Condition)
  /-- Conditional effect: if `pre` holds where the action is applied, `eff` takes place. -/
  | when (pre eff : Condition)
  | numEffect (e : NumericEffect)
  | compare (c : Comparison)
  deriving Inhabited

namespace Condition

mutual

/-- Structural equality of conditions. -/
def decEq : (a b : Condition) → Decidable (a = b)
  | .lit x, .lit y => if h : x = y then isTrue (h ▸ rfl) else isFalse (fun e => by cases e; exact h rfl)
  | .and xs, .and ys =>
      match decEqAll xs ys with
      | isTrue h => isTrue (h ▸ rfl)
      | isFalse h => isFalse (fun e => by cases e; exact h rfl)
  | .or xs, .or ys =>
      match decEqAll xs ys with
      | isTrue h => isTrue (h ▸ rfl)
      | isFalse h => isFalse (fun e => by cases e; exact h rfl)
  | .not x, .not y =>
      match decEq x y with
      | isTrue h => isTrue (h ▸ rfl)
      | isFalse h => isFalse (fun e => by cases e; exact h rfl)
  | .quant q vs x, .quant r ws y =>
      if hq : q = r then
        if hv : vs = ws then
          match decEq x y with
          | isTrue h => isTrue (hq ▸ hv ▸ h ▸ rfl)
          | isFalse h => isFalse (fun e => by cases e; exact h rfl)
        else isFalse (fun e => by cases e; exact hv rfl)
      else isFalse (fun e => by cases e; exact hq rfl)
  | .when p x, .when q y =>
      match decEq p q with
      | isTrue hp =>
          match decEq x y with
          | isTrue h => isTrue (hp ▸ h ▸ rfl)
          | isFalse h => isFalse (fun e => by cases e; exact h rfl)
      | isFalse hp => isFalse (fun e => by cases e; exact hp rfl)
  | .numEffect x, .numEffect y =>
      if h : x = y then isTrue (h ▸ rfl) else isFalse (fun e => by cases e; exact h rfl)
  | .compare x, .compare y =>
      if h : x = y then isTrue (h ▸ rfl) else isFalse (fun e => by cases e; exact h rfl)
  | .lit _, .and _ | .lit _, .or _ | .lit _, .not _ | .lit _, .quant .. | .lit _, .when ..
  | .lit _, .numEffect _ | .lit _, .compare _
  | .and _, .lit _ | .and _, .or _ | .and _, .not _ | .and _, .quant .. | .and _, .when ..
  | .and _, .numEffect _ | .and _, .compare _
  | .or _, .lit _ | .or _, .and _ | .or _, .not _ | .or _, .quant .. | .or _, .when ..
  | .or _, .numEffect _ | .or _, .compare _
  | .not _, .lit _ | .not _, .and _ | .not _, .or _ | .not _, .quant .. | .not _, .when ..
  | .not _, .numEffect _ | .not _, .compare _
  | .quant .., .lit _ | .quant .., .and _ | .quant .., .or _ | .quant .., .not _
  | .quant .., .when .. | .quant .., .numEffect _ | .quant .., .compare _
  | .when .., .lit _ | .when .., .and _ | .when .., .or _ | .when .., .not _
  | .when .., .quant .. | .when .., .numEffect _ | .when .., .compare _
  | .numEffect _, .lit _ | .numEffect _, .and _ | .numEffect _, .or _ | .numEffect _, .not _
  | .numEffect _, .quant .. | .numEffect _, .when .. | .numEffect _, .compare _
  | .compare _, .lit _ | .compare _, .and _ | .compare _, .or _ | .compare _, .not _
  | .compare _, .quant .. | .compare _, .when .. | .compare _, .numEffect _ =>
      isFalse (fun e => by cases e)

/-- Structural equality of lists of conditions. -/
def decEqAll : (xs ys : List Condition) → Decidable (xs = ys)
  | [], [] => isTrue rfl
  | [], _ :: _ => isFalse (fun e => by cases e)
  | _ :: _, [] => isFalse (fun e => by cases e)
  | x :: xs, y :: ys =>
      match decEq x y with
      | isTrue h =>
          match decEqAll xs ys with
          | isTrue t => isTrue (h ▸ t ▸ rfl)
          | isFalse t => isFalse (fun e => by cases e; exact t rfl)
      | isFalse h => isFalse (fun e => by cases e; exact h rfl)

end

instance : DecidableEq Condition := decEq

/-- The constant true, which is also the empty effect. -/
def tautology : Condition := .and []

/-- The constant false. -/
def contradiction : Condition := .or []

/-- Whether the condition is literally the empty conjunction. -/
def isTautology : Condition → Bool
  | .and [] => true
  | _ => false

/-- Whether the condition is literally the empty disjunction. -/
def isContradiction : Condition → Bool
  | .or [] => true
  | _ => false

/-- A parameter list as written after a quantifier: `?x - t ?y - u`. -/
def displayVars (vars : List Param) : String :=
  " ".intercalate (vars.map fun v => "?" ++ v.typed)

mutual

/-- The condition in PDDL syntax. -/
def display : Condition → String
  | .lit l => l.display
  | .and cs => "(and" ++ displayAll cs ++ ")"
  | .or cs => "(or" ++ displayAll cs ++ ")"
  | .not c => "(not " ++ display c ++ ")"
  | .quant q vs c => "(" ++ q.keyword ++ " (" ++ displayVars vs ++ ") " ++ display c ++ ")"
  | .when p c => "(when " ++ display p ++ " " ++ display c ++ ")"
  | .numEffect e => e.display
  | .compare c => c.display

/-- The conditions of a list, each preceded by a space. -/
def displayAll : List Condition → String
  | [] => ""
  | c :: cs => " " ++ display c ++ displayAll cs

end

mutual

/-- The literals of the condition in order, those under quantifiers and in conditional effects
included. -/
def literals : Condition → List Literal
  | .lit l => [l]
  | .and cs => literalsAll cs
  | .or cs => literalsAll cs
  | .not c => literals c
  | .quant _ _ c => literals c
  | .when p c => literals p ++ literals c
  | .numEffect _ => []
  | .compare _ => []

/-- The literals of the conditions of a list. -/
def literalsAll : List Condition → List Literal
  | [] => []
  | c :: cs => literals c ++ literalsAll cs

end

end Condition

end Pddl
