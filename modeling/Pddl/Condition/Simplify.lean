import Pddl.Condition.Numeric
/-!
# Negation normal form

`c.simplify neg` is a condition equivalent to `c` (to its negation when `neg` is set) in which
negations stand only on literals and comparisons, nested conjunctions and disjunctions are
flattened, and the constants true (`(and)`) and false (`(or)`) are propagated. Equality
literals whose value does not depend on a binding, and comparisons of constant expressions,
are evaluated.

Conditional effects cannot be negated: both of their parts are simplified without negation.
-/

namespace Pddl

/-- For an equality literal whose value does not depend on a binding, that value: two objects
are equal when they have the same name, a variable is equal to itself. -/
def Literal.staticEquality (l : Literal) : Option Bool :=
  if l.pred = equalityName then
    match l.args with
    | [.const x, .const y] => some ((x.name == y.name) != l.negated)
    | [.var x, .var y] => if x.name = y.name then some !l.negated else none
    | _ => none
  else none

/-- Conjunction or disjunction, the two kinds of condition sets. -/
inductive Junction where
  | conj
  | disj
  deriving DecidableEq, Inhabited

namespace Junction

def dual : Junction → Junction
  | .conj => .disj
  | .disj => .conj

def build : Junction → List Condition → Condition
  | .conj, cs => .and cs
  | .disj, cs => .or cs

/-- The members of a set of this kind. -/
def members? : Junction → Condition → Option (List Condition)
  | .conj, .and cs => some cs
  | .disj, .or cs => some cs
  | _, _ => none

/-- Whether the element makes a set of this kind constant: false in a conjunction, true in a
disjunction. -/
def absorbs : Junction → Condition → Bool
  | .conj, c => c.isContradiction
  | .disj, c => c.isTautology

/-- The elements with nested sets of the same kind flattened, or `none` when one of them is
absorbing. -/
def flatten (k : Junction) : List Condition → Option (List Condition)
  | [] => some []
  | e :: es =>
      match k.members? e with
      | some nested => (k.flatten es).map (nested ++ ·)
      | none => if k.absorbs e then none else (k.flatten es).map (e :: ·)

/-- The set of the given elements: nested sets of the same kind are flattened, an absorbing
element makes the whole set constant, and a set of a single element is that element. -/
def normalize (k : Junction) (es : List Condition) : Condition :=
  match k.flatten es with
  | none => k.dual.build []
  | some [e] => e
  | some flat => k.build flat

end Junction

namespace Condition

mutual

/-- The negation normal form of the condition, or of its negation when `neg` is set. -/
def simplify (neg : Bool) : Condition → Condition
  | .lit l =>
      let l' := if neg then l.negate else l
      match l'.staticEquality with
      | some true => tautology
      | some false => contradiction
      | none => .lit l'
  | .and cs => (if neg then Junction.disj else Junction.conj).normalize (simplifyAll neg cs)
  | .or cs => (if neg then Junction.conj else Junction.disj).normalize (simplifyAll neg cs)
  | .not c => simplify (!neg) c
  | .quant q vs c =>
      let q' := if neg then q.dual else q
      let inner := simplify neg c
      if vs.isEmpty || (inner.isTautology && q' == .all) then inner
      else if inner.isContradiction && q' == .any then inner
      else .quant q' vs inner
  | .when p c =>
      let p' := simplify false p
      let c' := simplify false c
      if p'.isContradiction || c'.isTautology then tautology
      else if p'.isTautology then c'
      else .when p' c'
  | .numEffect e => .numEffect e
  | .compare c =>
      let c' := if neg then c.negated else c
      match c'.constValue? with
      | some true => tautology
      | some false => contradiction
      | none => .compare c'

def simplifyAll (neg : Bool) : List Condition → List Condition
  | [] => []
  | c :: cs => simplify neg c :: simplifyAll neg cs

end

end Condition

end Pddl
