import Pddl.Condition.Simplify
import Pddl.Condition.Subst
import Pddl.Condition.Traverse
import Pddl.Problem.Basic
import Pddl.Ground.Stratify
import Pddl.Ground.Task
/-!
# Instantiating a lifted problem

Operators and axioms are instantiated with objects; their closed conditions become guards and
their closed effects become lists of added and deleted atoms. Every atom met on the way is
interned, in the order it is met, so the numbering of the atoms follows the order in which the
grounding strategy instantiates the schemas.

A guard is read from the negation normal form of a condition: its literals at the top level
give the true and false atoms, sorted and without repetition, and the other top-level parts
become the formula. A condition that asks for an atom to be both true and false, or whose
formula is the empty disjunction, never holds and gives no guard. Quantifications met on the way
are expanded over the objects.

Effects are collected into unconditional lists and one pair of lists per prerequisite, where
prerequisites of nested conditional effects are conjoined. A prerequisite that gives no guard
drops its effects, and one that always holds adds its effects to the unconditional ones.
Numeric effects are dropped and counted.

Conditions are handled with a fuel that starts at their depth: neither simplification nor
binding deepens a condition, so an instance of a quantification is no deeper than its body.
-/

namespace Pddl

/-- What instantiation keeps track of: the atoms met so far and the numeric effects dropped. -/
structure Grounder where
  table : AtomTable := {}
  droppedNumeric : Nat := 0
  deriving Inhabited

/-- Computations that intern atoms and may fail with a grounding error. -/
abbrev GroundM := StateT Grounder (Except GroundingError)

namespace Grounder

/-- The number of the atom, interning it when new. -/
def intern (a : GroundAtom) : GroundM AtomId :=
  modifyGet fun g =>
    let (i, t) := g.table.intern a
    (i, { g with table := t })

/-- The names of the arguments, when they are all objects. -/
def constNames : List Argument → Option (List String)
  | [] => some []
  | .const o :: as => (constNames as).map (o.name :: ·)
  | .var _ :: _ => none

/-- The number of the atom of a ground literal; a literal with a variable is out of place. -/
def atomOf (ctx : String) (l : Literal) : GroundM AtomId :=
  match constNames l.args with
  | some names => intern ⟨l.pred, names⟩
  | none => throw (.malformedLiteral l ctx)

/-- The sorted atoms without repetition. -/
def normalized (as : List AtomId) : List AtomId :=
  (as.mergeSort fun a b => decide (a ≤ b)).eraseDups

/-- The instances of a quantified body, each in negation normal form. -/
def expand (pb : Problem) (vs : List Param) (body : Condition) : List Condition :=
  (pb.bindings vs).map fun t => (body.bind vs t).simplify false

/-- The formula of a closed condition in negation normal form. -/
def formula (pb : Problem) (ctx : String) : Nat → Condition → GroundM Formula
  | 0, c => throw (.malformed c.display ctx)
  | _ + 1, .lit l => do pure (.lit (← atomOf ctx l) !l.negated)
  | n + 1, .and cs => .and <$> cs.mapM (formula pb ctx n)
  | n + 1, .or cs => .or <$> cs.mapM (formula pb ctx n)
  | n + 1, .quant q vs body => do
      let fs ← (expand pb vs body).mapM (formula pb ctx n)
      pure (match q with
        | .all => .and fs
        | .any => .or fs)
  | _ + 1, .compare c => throw (.numericCondition c.display ctx)
  | _ + 1, c => throw (.malformed c.display ctx)

/-- The top-level parts of a condition: the members of a conjunction, or the condition. -/
def conjuncts : Condition → List Condition
  | .and cs => cs
  | c => [c]

/-- The guard of a closed condition, or `none` when it can never hold. -/
def guard (pb : Problem) (ctx : String) (c : Condition) : GroundM (Option Guard) := do
  let (pos, neg, residual) ← (conjuncts (c.simplify false)).foldlM
    (fun (acc : List AtomId × List AtomId × List Formula) d =>
      match d with
      | .lit l => do
          let a ← atomOf ctx l
          pure (if l.negated then (acc.1, acc.2.1 ++ [a], acc.2.2) else (acc.1 ++ [a], acc.2.1, acc.2.2))
      | other => do
          let f ← formula pb ctx (other.depth + 1) other
          pure (acc.1, acc.2.1, acc.2.2 ++ [f])) ([], [], [])
  let pos := normalized pos
  let neg := normalized neg
  if pos.any neg.contains then return none
  let f : Option Formula := match residual with
    | [] => none
    | [f] => some f
    | fs => some (.and fs)
  if f = some (.or []) then return none
  return some { positive := pos, negative := neg, formula := f }

end Grounder

/-- Effects gathered from a closed effect: unconditional additions and deletions, and the
additions and deletions of each prerequisite, in the order prerequisites are first met. -/
structure EffectLists where
  add : List AtomId := []
  del : List AtomId := []
  cond : List (Condition × List AtomId × List AtomId) := []
  deriving Inhabited

namespace EffectLists

/-- Records an added (or, with `isDel`, deleted) atom under the prerequisite, if any. -/
def push (e : EffectLists) (pre : Option Condition) (a : AtomId) (isDel : Bool) : EffectLists :=
  match pre with
  | none => if isDel then { e with del := e.del ++ [a] } else { e with add := e.add ++ [a] }
  | some p =>
      if e.cond.any (·.1 = p) then
        { e with cond := e.cond.map fun (q, ad, dl) =>
            if q = p then (if isDel then (q, ad, dl ++ [a]) else (q, ad ++ [a], dl)) else (q, ad, dl) }
      else
        { e with cond := e.cond ++ [if isDel then (p, [], [a]) else (p, [a], [])] }

end EffectLists

namespace Grounder

/-- Adds the atoms of a closed effect in negation normal form, under the prerequisite. -/
def collectEffects (pb : Problem) (ctx : String) :
    Nat → Condition → Option Condition → EffectLists → GroundM EffectLists
  | 0, _, _, e => pure e
  | _ + 1, .lit l, pre, e => do
      let a ← atomOf ctx l
      pure (e.push pre a l.negated)
  | n + 1, .and cs, pre, e => cs.foldlM (fun e c => collectEffects pb ctx n c pre e) e
  | n + 1, .when p c, pre, e =>
      let combined := match pre with
        | none => p
        | some outer => (Condition.and [outer, p]).simplify false
      collectEffects pb ctx n c (some combined) e
  | n + 1, .quant .all vs body, pre, e =>
      (expand pb vs body).foldlM (fun e c => collectEffects pb ctx n c pre e) e
  | _ + 1, .numEffect _, _, e => do
      modify fun g => { g with droppedNumeric := g.droppedNumeric + 1 }
      pure e
  | _ + 1, c@(.or _), _, _ => throw (.disjunctiveEffect c.display ctx)
  | _ + 1, c@(.quant .any ..), _, _ => throw (.disjunctiveEffect c.display ctx)
  | _ + 1, c, _, _ => throw (.malformed c.display ctx)

/-- The instance of the operator with the given objects, or `none` when its precondition can
never hold. -/
def action (pb : Problem) (op : Operator) (args : List Argument) : GroundM (Option Action) := do
  let ctx := op.name
  let some pre ← guard pb ctx (op.pre.bind op.params args) | return none
  let eff := (op.eff.bind op.params args).simplify false
  let effs ← collectEffects pb ctx (eff.depth + 1) eff none {}
  let (add, del, conds) ← effs.cond.foldlM
    (fun (acc : List AtomId × List AtomId × List ConditionalEffect) (p, ad, dl) => do
      match ← guard pb ctx p with
      | none => pure acc
      | some g =>
          if g.isTrivial then pure (acc.1 ++ ad, acc.2.1 ++ dl, acc.2.2)
          else pure (acc.1, acc.2.1, acc.2.2 ++ [⟨g, normalized ad, normalized dl⟩]))
    (effs.add, effs.del, [])
  return some { name := op.name, args := args.map Argument.name, cost := op.cost, pre := pre,
                add := normalized add, del := normalized del, cond := conds }

/-- The instance of the axiom with the given objects, or `none` when its condition can never
hold. -/
def axiomInstance (pb : Problem) (ax : Axiom) (args : List Argument) : GroundM (Option GroundAxiom) := do
  let ctx := ax.pred.name
  let some g ← guard pb ctx (ax.cond.bind ax.params args) | return none
  let a ← atomOf ctx { pred := ax.pred.name, args := args }
  return some ⟨a, g⟩

/-- The warning for dropped numeric effects, if any were dropped. -/
def droppedWarning (n : Nat) : List String :=
  if n > 0 then [toString n ++ " numeric effects are not supported by the ground model and were ignored"]
  else []

/-- The ground problem of the selected instances, with the warnings given. -/
def finish (pb : Problem) (actions : List Action) (axioms : List GroundAxiom) :
    GroundM (GroundProblem × List String) := do
  let initAtoms ← pb.init.mapM (atomOf "init")
  let goal := (← guard pb "goal" (.and pb.goals)).getD Guard.unsatisfiable
  let g ← get
  let warnings := droppedWarning g.droppedNumeric
  let (axioms, strata) ← StateT.lift (stratify g.table axioms)
  let init := initAtoms.foldl State.add (State.allFalse g.table.size)
  let gp : GroundProblem := ⟨g.table, init, goal, actions, axioms, strata⟩
  return ({ gp with init := gp.close gp.init }, warnings)

end Grounder

end Pddl
