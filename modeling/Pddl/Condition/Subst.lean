import Pddl.Condition.Numeric
/-!
# Substitution and free variables

`Condition.bind vars values` replaces each variable named in `vars` by the value at the same
position of `values`. Variables are matched by name; inside a quantification, the names it
rebinds are not replaced.

`Condition.freeVars` lists the variables that no enclosing quantification binds, in the order
of their first appearance, once per name.
-/

namespace Pddl

/-- A substitution: variable names with their values. The first entry of a name wins. -/
abbrev Subst := List (String × Argument)

namespace Argument

/-- The value of the argument under a substitution. Constants and variables without an entry
are left unchanged. -/
def subst (σ : Subst) : Argument → Argument
  | .const o => .const o
  | .var p =>
      match σ.find? (·.1 == p.name) with
      | some (_, v) => v
      | none => .var p

end Argument

/-- The substitution sending each variable of `vars` to the value at the same position. -/
def Subst.ofLists (vars : List Param) (values : List Argument) : Subst :=
  (vars.map Param.name).zip values

/-- The substitution without the entries of the names in `names`. -/
def Subst.without (σ : Subst) (names : List String) : Subst :=
  σ.filter fun e => !names.contains e.1

def Literal.subst (σ : Subst) (l : Literal) : Literal :=
  { l with args := l.args.map (Argument.subst σ) }

def FluentApp.subst (σ : Subst) (f : FluentApp) : FluentApp :=
  { f with args := f.args.map (Argument.subst σ) }

def NumExpr.subst (σ : Subst) : NumExpr → NumExpr
  | .const v => .const v
  | .fluent f => .fluent (f.subst σ)
  | .op o l r => .op o (l.subst σ) (r.subst σ)

def NumericEffect.subst (σ : Subst) (e : NumericEffect) : NumericEffect :=
  { e with target := e.target.subst σ, value := e.value.subst σ }

def Comparison.subst (σ : Subst) (c : Comparison) : Comparison :=
  { c with lhs := c.lhs.subst σ, rhs := c.rhs.subst σ }

namespace Condition

mutual

/-- The condition under a substitution. A quantification hides the entries of the names it
binds from its body. -/
def subst (σ : Subst) : Condition → Condition
  | .lit l => .lit (l.subst σ)
  | .and cs => .and (substAll σ cs)
  | .or cs => .or (substAll σ cs)
  | .not c => .not (subst σ c)
  | .quant q vs c => .quant q vs (subst (σ.without (vs.map Param.name)) c)
  | .when p c => .when (subst σ p) (subst σ c)
  | .numEffect e => .numEffect (e.subst σ)
  | .compare c => .compare (c.subst σ)

def substAll (σ : Subst) : List Condition → List Condition
  | [] => []
  | c :: cs => subst σ c :: substAll σ cs

end

/-- Replaces each variable of `vars` by the value at the same position of `values`. -/
def bind (vars : List Param) (values : List Argument) (c : Condition) : Condition :=
  c.subst (Subst.ofLists vars values)

/-- Adds the variable arguments that are neither bound nor already listed. -/
def visitArgs (bound : List String) (free : List Param) : List Argument → List Param
  | [] => free
  | .const _ :: rest => visitArgs bound free rest
  | .var p :: rest =>
      if bound.contains p.name || free.any (·.name == p.name) then visitArgs bound free rest
      else visitArgs bound (free ++ [p]) rest

mutual

/-- The free variables of the condition appended to `free`, with `bound` the names bound by
the enclosing quantifications. -/
def collectFree (bound : List String) (free : List Param) : Condition → List Param
  | .lit l => visitArgs bound free l.args
  | .and cs => collectFreeAll bound free cs
  | .or cs => collectFreeAll bound free cs
  | .not c => collectFree bound free c
  | .quant _ vs c => collectFree (bound ++ vs.map Param.name) free c
  | .when p c => collectFree bound (collectFree bound free p) c
  | .numEffect e => visitArgs bound free (e.target.args ++ e.value.arguments)
  | .compare c => visitArgs bound free (c.lhs.arguments ++ c.rhs.arguments)

def collectFreeAll (bound : List String) (free : List Param) : List Condition → List Param
  | [] => free
  | c :: cs => collectFreeAll bound (collectFree bound free c) cs

end

/-- The variables of the condition that no enclosing quantification binds, in order of first
appearance, one per name. -/
def freeVars (c : Condition) : List Param := collectFree [] [] c

mutual

/-- Whether a numeric expression or effect anywhere in the condition uses the function named
`fn`. -/
def references (fn : String) : Condition → Bool
  | .lit _ => false
  | .and cs => referencesAny fn cs
  | .or cs => referencesAny fn cs
  | .not c => references fn c
  | .quant _ _ c => references fn c
  | .when p c => references fn p || references fn c
  | .numEffect e => e.references fn
  | .compare c => c.references fn

def referencesAny (fn : String) : List Condition → Bool
  | [] => false
  | c :: cs => references fn c || referencesAny fn cs

end

end Condition

end Pddl
