import Pddl.Ground.Instantiate
/-!
# Grounding the instances reachable in the delete relaxation

Starting from the atoms of the initial state, the reached atoms grow in layers: each round
instantiates the schemas whose positive preconditions match reached atoms, keeps the instances
whose relaxed precondition holds, and adds the atoms these instances can add when deletions are
ignored. Rounds stop when one adds no atom. Since ignoring deletions can only enlarge what is
reachable, no instance applicable in a reachable state is missed.

Bindings are found by joining the positive literals at the top level of a condition with the
reached atoms of their predicates, semi-naively: a round only looks at the bindings in which one
literal matches an atom of the last layer, the literals before it older atoms and those after it
any atom. Parameters no such literal binds range over the objects of their type. A condition
without such literals is only bound in the first round. Each instance, identified by its schema
and its arguments, is instantiated once.
-/

namespace Pddl

/-- The reached atoms of each predicate in the order they were reached, and how many of them
were reached before the last layer. -/
structure Reached where
  byPred : List (String × List GroundAtom) := []
  old : List (String × Nat) := []
  deriving Inhabited

/-- Which of the reached atoms of a predicate a literal is joined with. -/
inductive LayerPart where
  /-- The atoms reached before the last layer. -/
  | old
  /-- The atoms of the last layer. -/
  | new
  | all
  deriving DecidableEq, Inhabited

namespace Reached

def add (r : Reached) (a : GroundAtom) : Reached :=
  if (r.byPred.lookup a.pred).isSome then
    { r with byPred := r.byPred.map fun e => if e.1 == a.pred then (e.1, e.2 ++ [a]) else e }
  else { r with byPred := r.byPred ++ [(a.pred, [a])] }

/-- Marks every atom reached so far as old. -/
def nextLayer (r : Reached) : Reached :=
  { r with old := r.byPred.map fun e => (e.1, e.2.length) }

def part (r : Reached) (p : String) : LayerPart → List GroundAtom
  | .old => ((r.byPred.lookup p).getD []).take ((r.old.lookup p).getD 0)
  | .new => ((r.byPred.lookup p).getD []).drop ((r.old.lookup p).getD 0)
  | .all => (r.byPred.lookup p).getD []

end Reached

/-- The positive literals at the top level of a condition, equality left out. -/
def requiredLiterals (c : Condition) : List Literal :=
  (Grounder.conjuncts c).filterMap fun
    | .lit l => if !l.negated && l.pred != equalityName then some l else none
    | _ => none

/-- A partial binding of parameters to object names. -/
abbrev PartialBinding := List (Option String)

/-- Extends the binding so that an argument of a literal takes the value, if possible. A variable
that is not a parameter is not constrained; a parameter bound here must get a well-typed
object. -/
def unifyArg (pb : Problem) (params : List Param) (binding : PartialBinding) :
    Argument × String → Option PartialBinding
  | (.const o, value) => if o.name == value then some binding else none
  | (.var v, value) =>
      match params.findIdx? (·.name == v.name) with
      | none => some binding
      | some i =>
          match binding.getD i none with
          | some bound => if bound == value then some binding else none
          | none =>
              match pb.findObject? value with
              | some o =>
                  if pb.types.isSubtype o.type (params.getD i default).type then
                    some (binding.set i (some value))
                  else none
              | none => none

/-- Extends the binding so that the literal matches the atom, if possible. -/
def unify (pb : Problem) (params : List Param) (l : Literal) (atom : GroundAtom)
    (binding : PartialBinding) : Option PartialBinding :=
  if l.args.length != atom.args.length then none
  else (l.args.zip atom.args).foldlM (unifyArg pb params) binding

/-- The bindings under which each literal matches a reached atom of its part, in order. -/
def joinLiterals (pb : Problem) (params : List Param) (r : Reached) :
    List (Literal × LayerPart) → PartialBinding → List PartialBinding
  | [], binding => [binding]
  | (l, p) :: rest, binding =>
      (r.part l.pred p).flatMap fun atom =>
        match unify pb params l atom binding with
        | some b => joinLiterals pb params r rest b
        | none => []

/-- The complete bindings extending a partial one: unbound parameters range over the objects of
their type. -/
def completeBindings (pb : Problem) (params : List Param) (binding : PartialBinding) :
    List (List Argument) :=
  cartesian ((params.zip binding).map fun (p, v) =>
    match v with
    | some name => (pb.findObject? name).toList.map Argument.const
    | none => (pb.instancesOf p.type).map Argument.const)

/-- The literals with the parts they are joined with when the `k`-th one takes the last layer:
those before it take older atoms, those after it any atom. -/
def layerParts (lits : List Literal) (k : Nat) : List (Literal × LayerPart) :=
  lits.zipIdx.map fun (l, j) =>
    (l, if j < k then LayerPart.old else if j = k then LayerPart.new else LayerPart.all)

/-- The bindings of a condition that are new in this round. -/
def newBindings (pb : Problem) (params : List Param) (c : Condition) (r : Reached)
    (firstRound : Bool) : List (List Argument) :=
  let lits := requiredLiterals c
  let empty : PartialBinding := params.map fun _ => none
  if lits.isEmpty then (if firstRound then completeBindings pb params empty else [])
  else
    (List.range lits.length).flatMap fun k =>
      (joinLiterals pb params r (layerParts lits k) empty).flatMap (completeBindings pb params)

/-- Where the reachability rounds stand. -/
structure Frontier where
  /-- The reached atoms, as a state. -/
  layer : State := {}
  reached : Reached := {}
  seenActions : List (Nat × List String) := []
  seenAxioms : List (Nat × List String) := []
  pendingActions : List Action := []
  pendingAxioms : List GroundAxiom := []
  actions : List Action := []
  axioms : List GroundAxiom := []
  deriving Inhabited

/-- The literals instantiation can make an atom of: the initial atoms, the literals of the
operators' preconditions and effects and of the axioms' conditions, and the head of each axiom
over its parameters. -/
def Problem.instanceLiterals (pb : Problem) : List Literal :=
  pb.init ++ pb.operators.flatMap (fun op => op.pre.literals ++ op.eff.literals) ++
    pb.axioms.flatMap fun ax => ⟨ax.pred.name, ax.params.map .var, false⟩ :: ax.cond.literals

/-- The names the arguments of those atoms can take: the objects' and the constants' of the
instance literals. -/
def Problem.atomNames (pb : Problem) : List String :=
  pb.objects.map (·.name) ++ pb.instanceLiterals.flatMap fun l =>
    l.args.filterMap fun
      | .const o => some o.name
      | .var _ => none

namespace Grounder

/-- Instantiates the schema at position `i` with each binding not seen before. -/
def instantiateNew {β : Type} (i : Nat) (bindings : List (List Argument))
    (inst : List Argument → GroundM (Option β)) (seen : List (Nat × List String)) (pending : List β) :
    GroundM (List (Nat × List String) × List β) :=
  bindings.foldlM (fun (acc : List (Nat × List String) × List β) args => do
    let key := (i, args.map Argument.name)
    if acc.1.contains key then pure acc
    else
      match ← inst args with
      | some b => pure (acc.1 ++ [key], acc.2 ++ [b])
      | none => pure (acc.1 ++ [key], acc.2)) (seen, pending)

/-- Makes an atom reached, when it is not yet. Also tells whether it was new. -/
def reach (f : Frontier) (a : AtomId) : GroundM (Frontier × Bool) := do
  if f.layer.isSet a then return (f, false)
  let g ← get
  return ({ f with layer := f.layer.add a, reached := f.reached.add (g.table.get a) }, true)

/-- One round; also tells how many atoms it reached. -/
def reachRound (pb : Problem) (first : Bool) (f : Frontier) : GroundM (Frontier × Nat) := do
  let (seenActions, pendingActions) ← pb.operators.zipIdx.foldlM
    (fun (acc : List (Nat × List String) × List Action) (op, i) =>
      instantiateNew i (newBindings pb op.params op.pre f.reached first) (action pb op) acc.1 acc.2)
    (f.seenActions, f.pendingActions)
  let (seenAxioms, pendingAxioms) ← pb.axioms.zipIdx.foldlM
    (fun (acc : List (Nat × List String) × List GroundAxiom) (ax, i) =>
      instantiateNew i (newBindings pb ax.params ax.cond f.reached first) (axiomInstance pb ax) acc.1 acc.2)
    (f.seenAxioms, f.pendingAxioms)
  let reached := f.reached.nextLayer
  let actions := f.actions ++ pendingActions.filter (·.pre.relaxedHolds f.layer)
  let pendingActions := pendingActions.filter fun a => !a.pre.relaxedHolds f.layer
  let axioms := f.axioms ++ pendingAxioms.filter (·.guard.relaxedHolds f.layer)
  let pendingAxioms := pendingAxioms.filter fun ax => !ax.guard.relaxedHolds f.layer
  let added := (actions.flatMap (·.relaxedAdds f.layer) ++
    (axioms.filter (·.guard.relaxedHolds f.layer)).map (·.atom)).filter fun a => !f.layer.isSet a
  let f : Frontier := { f with reached, seenActions, seenAxioms, pendingActions, pendingAxioms,
                               actions, axioms }
  added.foldlM (fun (acc : Frontier × Nat) a => do
    let (f, isNew) ← reach acc.1 a
    pure (f, if isNew then acc.2 + 1 else acc.2)) (f, 0)

/-- Rounds until one reaches no atom, at most `fuel` of them. -/
def reachRounds (pb : Problem) : Nat → Bool → Frontier → GroundM Frontier
  | 0, _, f => pure f
  | fuel + 1, first, f => do
      let (f, count) ← reachRound pb first f
      if count = 0 then pure f else reachRounds pb fuel false f

/-- How many atoms instantiation can make at most: those with the predicate and the number of
arguments of one of the problem's instance literals, over its atom names. Every round but the
last reaches a new one, so one round more is enough. -/
def atomBound (pb : Problem) : Nat :=
  (pb.instanceLiterals.map fun l => Nat.pow pb.atomNames.length l.args.length).foldr (· + ·) 0

/-- The ground problem of the reachable instances. -/
def groundReachable (pb : Problem) : GroundM (GroundProblem × List String) := do
  let f ← pb.init.foldlM (fun (f : Frontier) l => do
    let a ← atomOf "init" l
    let (f, _) ← reach f a
    pure f) {}
  let f ← reachRounds pb (atomBound pb + 1) true f
  finish pb f.actions f.axioms

end Grounder

end Pddl
