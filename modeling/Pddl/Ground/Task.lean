import Pddl.Ground.Action
/-!
# Ground problems

A ground problem has a table of atoms, an initial state, a goal guard, actions, and rules for
derived atoms sorted by stratum. Derived atoms are never set by actions directly: after every
change of state they are recomputed. All derived atoms are made false, then the strata are
taken in order, and within a stratum every rule whose head is false and whose guard holds sets
its head, round after round until a round sets nothing. A rule only depends negatively on atoms
of lower strata, which are final by the time its stratum is reached.
-/

namespace Pddl

/-- A planning problem over ground atoms. -/
structure GroundProblem where
  atoms : AtomTable
  /-- The initial state, with its derived atoms computed. -/
  init : State
  goal : Guard
  actions : List Action
  /-- The rules for derived atoms, sorted by stratum. -/
  axioms : List GroundAxiom
  /-- The end position of each stratum in `axioms`. -/
  strata : List Nat
  deriving Inhabited

/-- One rule within a round: it sets its head when the head is false and the guard holds, and
then records that something was set. -/
def fireRule (acc : State × Bool) (ax : GroundAxiom) : State × Bool :=
  if !acc.1.isSet ax.atom && ax.guard.holds acc.1 then (acc.1.add ax.atom, true) else acc

/-- One round of the rules: each one whose head is false and whose guard holds sets its head.
Also tells whether some head was set. -/
def fireRules (s : State) (rules : List GroundAxiom) : State × Bool :=
  rules.foldl fireRule (s, false)

/-- Rounds of the rules until one sets nothing, at most `fuel` of them. A round that sets
something sets a head that stays set, so one more round than there are rules is enough. -/
def saturate (rules : List GroundAxiom) : Nat → State → State
  | 0, s => s
  | fuel + 1, s =>
      let (s', changed) := fireRules s rules
      if changed then saturate rules fuel s' else s'

/-- The strata: consecutive slices of the rules, ending at the given positions. -/
def sliceStrata (rules : List GroundAxiom) (ends : List Nat) : List (List GroundAxiom) :=
  (ends.foldl (fun (acc : List (List GroundAxiom) × Nat) e =>
    (acc.1 ++ [(rules.drop acc.2).take (e - acc.2)], e)) ([], 0)).1

namespace GroundProblem

/-- The state with its derived atoms recomputed. -/
def close (gp : GroundProblem) (s : State) : State :=
  if gp.axioms.isEmpty then s
  else
    let cleared := gp.axioms.foldl (fun s ax => s.del ax.atom) s
    (sliceStrata gp.axioms gp.strata).foldl (fun s rules => saturate rules (rules.length + 1) s) cleared

def isGoal (gp : GroundProblem) (s : State) : Bool := gp.goal.holds s

/-- The actions applicable in the state, with their positions, in order. -/
def applicable (gp : GroundProblem) (s : State) : List (Nat × Action) :=
  gp.actions.zipIdx.filterMap fun (a, i) => if a.isApplicable s then some (i, a) else none

/-- The state after the action, with its derived atoms recomputed. -/
def successor (gp : GroundProblem) (s : State) (a : Action) : State := gp.close (a.apply s)

end GroundProblem

end Pddl
