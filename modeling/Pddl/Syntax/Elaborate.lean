import Pddl.Syntax.Term
import Pddl.Problem.Builder
/-!
# Reading conditions

A condition term is a list whose head is a keyword or a predicate name:

* `["and", c...]`, `["or", c...]`, `["not", c]`, `["when", pre, eff]`;
* `["forall", params, c]` and `["exists", params, c]`, whose parameters extend the scope of `c`;
* `["assign"|"increase"|"decrease"|"scale-up"|"scale-down", fluent, expr]`;
* `["cmp", op, expr, expr]` with `op` among `<`, `<=`, `=`, `!=`, `>=`, `>`;
* `["lit", pred, args...]`, `["nlit", pred, args...]` (negated), or `[pred, args...]`.

An argument `"?x"` is the variable `x` with the type of the innermost `x` in scope, `"?x:t"` a
variable of type `t` (split at the first colon), and any other string the object of that name.
A fluent is `["fluent", name, args...]`; an expression is a 64-bit integer, a fluent, or
`[op, expr, expr]` with `op` among `+`, `-`, `*`, `/`.

Arguments are read before the literal or fluent is checked by the problem.
-/

namespace Pddl

/-- The parameters in scope, the innermost last. -/
abbrev Scope := List Param

/-- Reads a parameter `[name, type]`. -/
def readParam (t : Term) : Except Fault Param := do
  let (n, ty) ← t.asPair "a parameter is [name, type]"
  pure ⟨← n.asString, ← ty.asString⟩

def readParams (t : Term) : Except Fault (List Param) := do
  (← t.asList).mapM readParam

/-- The parameters of a field, none when the field is absent. -/
def readParamsField (t : Term) (k : String) : Except Fault (List Param) := do
  (← t.items k).mapM readParam

/-- Splits a text at its first colon. -/
def splitAtColon (cs : List Char) : Option (List Char × List Char) :=
  match cs.span (· != ':') with
  | (name, _ :: type) => some (name, type)
  | (_, []) => none

/-- Reads an argument: a variable of the scope, a typed variable, or an object. -/
def readArgument (pb : Problem) (scope : Scope) (t : Term) : Except Fault Argument := do
  let s ← t.asString
  match s.toList with
  | '?' :: rest =>
      match splitAtColon rest with
      | some (name, type) => pure (.var ⟨String.ofList name, String.ofList type⟩)
      | none =>
          let name := String.ofList rest
          match scope.reverse.find? (·.name == name) with
          | some p => pure (.var ⟨name, p.type⟩)
          | none => throw (.malformed ("variable " ++ s ++ " is not in scope and has no type"))
  | _ => liftModel (pb.object s)

def readArguments (pb : Problem) (scope : Scope) (ts : List Term) : Except Fault (List Argument) :=
  ts.mapM (readArgument pb scope)

/-- Reads a fluent `["fluent", name, args...]`. -/
def readFluent (pb : Problem) (scope : Scope) : Term → Except Fault FluentApp
  | .list (.str "fluent" :: name :: args) => do
      let name ← name.asString
      let args ← readArguments pb scope args
      liftModel (pb.fluent name args)
  | t => throw (.malformed ("expected [\"fluent\", name, args...], got " ++ t.render))

def readArithOp : String → Option ArithOp
  | "+" => some .plus
  | "-" => some .minus
  | "*" => some .times
  | "/" => some .div
  | _ => none

def readComparator : String → Option Comparator
  | "<" => some .lt
  | "<=" => some .le
  | "=" => some .eq
  | "!=" => some .ne
  | ">=" => some .ge
  | ">" => some .gt
  | _ => none

def readEffectKind : String → Option EffectKind
  | "assign" => some .assign
  | "increase" => some .increase
  | "decrease" => some .decrease
  | "scale-up" => some .scaleUp
  | "scale-down" => some .scaleDown
  | _ => none

/-- Reads a numeric expression. -/
def readExpr (pb : Problem) (scope : Scope) : Term → Except Fault NumExpr
  | .int n => .const <$> (Term.int n).asInt64
  | .float neg m e => .const <$> (Term.float neg m e).asInt64
  | .list (.str "fluent" :: rest) => .fluent <$> readFluent pb scope (.list (.str "fluent" :: rest))
  | .list (.str o :: rest) =>
      match readArithOp o, rest with
      | some op, [l, r] => do pure (.op op (← readExpr pb scope l) (← readExpr pb scope r))
      | some _, _ => throw (.malformed "an arithmetic operation has two operands")
      | none, _ => throw (.malformed ("bad numeric expression " ++ (Term.list (.str o :: rest)).render))
  | t => throw (.malformed ("bad numeric expression " ++ t.render))

/-- The keywords that cannot name a predicate in the short literal form. -/
def conditionKeywords : List String :=
  ["and", "or", "not", "forall", "exists", "when", "assign", "increase", "decrease", "scale-up",
   "scale-down", "cmp", "lit", "nlit"]

/-- The literal of `pred` on the argument terms, negated if asked. -/
def readLiteral (pb : Problem) (scope : Scope) (negated : Bool) (pred : Term) (args : List Term) :
    Except Fault Condition := do
  let pred ← pred.asString
  let args ← readArguments pb scope args
  let l ← liftModel (pb.literal pred args)
  pure (.lit { l with negated := negated })

/-- The refusal of a keyword form with the wrong number of operands. -/
def operandCount (kw : String) (n : Nat) : Fault :=
  .malformed (kw ++ " expects " ++ toString n ++ " operands")

mutual

/-- Reads a condition in the given scope. -/
def readCondition (pb : Problem) (scope : Scope) : Term → Except Fault Condition
  | .list (.str "and" :: cs) => .and <$> readConditions pb scope cs
  | .list (.str "or" :: cs) => .or <$> readConditions pb scope cs
  | .list [.str "not", c] => .not <$> readCondition pb scope c
  | .list (.str "not" :: _) => throw (operandCount "not" 1)
  | .list [.str "forall", ps, c] => do
      let vs ← readParams ps
      pure (.quant .all vs (← readCondition pb (scope ++ vs) c))
  | .list (.str "forall" :: _) => throw (operandCount "forall" 2)
  | .list [.str "exists", ps, c] => do
      let vs ← readParams ps
      pure (.quant .any vs (← readCondition pb (scope ++ vs) c))
  | .list (.str "exists" :: _) => throw (operandCount "exists" 2)
  | .list [.str "when", p, c] => do
      let p ← readCondition pb scope p
      pure (.when p (← readCondition pb scope c))
  | .list (.str "when" :: _) => throw (operandCount "when" 2)
  | .list [.str "cmp", o, l, r] => do
      let o ← o.asString
      match readComparator o with
      | some cmp => do
          let l ← readExpr pb scope l
          pure (.compare ⟨cmp, l, ← readExpr pb scope r⟩)
      | none => throw (.malformed ("unknown comparator " ++ o))
  | .list (.str "cmp" :: _) => throw (operandCount "cmp" 3)
  | .list (.str "lit" :: p :: args) => readLiteral pb scope false p args
  | .list (.str "nlit" :: p :: args) => readLiteral pb scope true p args
  | .list [.str "lit"] => throw (.malformed "a literal needs a predicate name")
  | .list [.str "nlit"] => throw (.malformed "a literal needs a predicate name")
  | .list (.str head :: rest) =>
      match readEffectKind head, rest with
      | some kind, [f, e] => do
          let f ← readFluent pb scope f
          pure (.numEffect ⟨f, kind, ← readExpr pb scope e⟩)
      | some _, _ => throw (operandCount head 2)
      | none, _ =>
          if conditionKeywords.contains head then throw (operandCount head 1)
          else readLiteral pb scope false (.str head) rest
  | .list (t :: _) => throw (.malformed ("expected a string, got " ++ t.render))
  | t => throw (.malformed ("expected a condition, got " ++ t.render))

def readConditions (pb : Problem) (scope : Scope) : List Term → Except Fault (List Condition)
  | [] => pure []
  | t :: ts => do
      let c ← readCondition pb scope t
      pure (c :: (← readConditions pb scope ts))

end

end Pddl
