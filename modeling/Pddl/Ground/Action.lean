import Pddl.Ground.Guard
/-!
# Ground actions and axioms

An action has a precondition, atoms it makes true and false, and conditional effects that do the
same when their guard holds. Applying an action judges every conditional effect in the state it
is applied to, then makes false the atoms of its own and of the triggered effects, and only then
makes true the added ones, so an atom both added and deleted ends up true.

A ground axiom derives an atom whenever its guard holds.
-/

namespace Pddl

/-- Atoms made true and false when the guard holds. -/
structure ConditionalEffect where
  guard : Guard
  add : List AtomId
  del : List AtomId
  deriving DecidableEq, Inhabited

/-- An instance of an operator. -/
structure Action where
  name : String
  args : List String
  cost : Int
  pre : Guard
  add : List AtomId
  del : List AtomId
  cond : List ConditionalEffect
  deriving DecidableEq, Inhabited

namespace Action

/-- The action as written: `(move a b)`. -/
def display (a : Action) : String :=
  "(" ++ a.name ++ String.join (a.args.map (" " ++ ·)) ++ ")"

def isApplicable (a : Action) (s : State) : Bool := a.pre.holds s

/-- The conditional effects whose guard holds in the state. -/
def triggered (a : Action) (s : State) : List ConditionalEffect :=
  a.cond.filter (·.guard.holds s)

/-- The state after the action: deletions first, then additions, all judged in `s`. -/
def apply (a : Action) (s : State) : State :=
  let fired := a.triggered s
  let dels := a.del ++ fired.flatMap (·.del)
  let adds := a.add ++ fired.flatMap (·.add)
  adds.foldl State.add (dels.foldl State.del s)

/-- The atoms the action adds when delete effects are ignored: its own additions and those of
the conditional effects whose guard relaxed-holds. -/
def relaxedAdds (a : Action) (s : State) : List AtomId :=
  a.add ++ (a.cond.filter (·.guard.relaxedHolds s)).flatMap (·.add)

end Action

/-- A rule deriving the atom whenever the guard holds. -/
structure GroundAxiom where
  atom : AtomId
  guard : Guard
  deriving DecidableEq, Inhabited

end Pddl
