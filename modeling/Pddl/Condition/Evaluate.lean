import Pddl.Condition.Simplify
import Pddl.Condition.Subst
import Pddl.Problem.Basic
/-!
# Closed-world evaluation

`c.evaluate pb holds` is the truth value of a condition under the closed-world interpretation
`holds`, which tells whether the atom of a predicate over object names is true. Quantifications
range over the objects of `pb` whose type is compatible with each variable, so a universal
quantification over an empty type is true and an existential one false.

There is no value (`none`) when the condition contains an effect or a numeric comparison, or a
literal with a variable that nothing binds. Equality literals between objects, or between a
variable and itself, have their value without the interpretation.
-/

namespace Pddl

/-- The names of the arguments when they are all objects. -/
def constNames? : List Argument → Option (List String)
  | [] => some []
  | .const o :: rest => (constNames? rest).map (o.name :: ·)
  | .var _ :: _ => none

namespace Condition

/-- Combines two optional truth values; no value if either has none. -/
def combine (conj : Bool) : Option Bool → Option Bool → Option Bool
  | some a, some b => some (if conj then a && b else a || b)
  | _, _ => none

mutual

/-- The value of the condition with the variables of `σ` bound to its objects. -/
def evalIn (pb : Problem) (holds : String → List String → Bool) (σ : Subst) :
    Condition → Option Bool
  | .lit l =>
      let l' := l.subst σ
      match l'.staticEquality with
      | some v => some v
      | none => (constNames? l'.args).map fun names => holds l'.pred names != l'.negated
  | .and cs => evalAll pb holds σ true cs
  | .or cs => evalAll pb holds σ false cs
  | .not c => (evalIn pb holds σ c).map (!·)
  | .quant q vs c =>
      let conj := q == .all
      let tuples := pb.bindings vs
      tuples.foldl (fun acc t => combine conj acc (evalIn pb holds (Subst.ofLists vs t ++ σ) c))
        (some conj)
  | .when .. => none
  | .numEffect _ => none
  | .compare _ => none

/-- The conjunction (`conj`) or disjunction of the values of the conditions. -/
def evalAll (pb : Problem) (holds : String → List String → Bool) (σ : Subst) (conj : Bool) :
    List Condition → Option Bool
  | [] => some conj
  | c :: cs => combine conj (evalIn pb holds σ c) (evalAll pb holds σ conj cs)

end

/-- The value of a closed condition under the closed-world interpretation `holds`. -/
def evaluate (pb : Problem) (holds : String → List String → Bool) (c : Condition) : Option Bool :=
  c.evalIn pb holds []

end Condition

end Pddl
