import Pddl.Ground.Action
import Pddl.Ground.Error
/-!
# Strata of derived predicates

Derived predicates get levels: a derived predicate is at least at the level of every derived
predicate its rules use positively, and above the level of every one they use negatively. Levels
start at zero and are raised rule by rule, in order, until no rule asks for more. With `n`
derived predicates no level needs to reach `n`; a rule asking for level `n` or more shows a
negative dependency of a predicate on itself.

The rules are then sorted by the level of their head, keeping their order within a level, and
the strata are given by the end position of each level in the sorted list.
-/

namespace Pddl

/-- The level of each derived predicate, in the order the predicates are first met. -/
abbrev Levels := List (String × Nat)

namespace Levels

def level (lv : Levels) (p : String) : Nat := (lv.lookup p).getD 0

def raise (lv : Levels) (p : String) (n : Nat) : Levels :=
  lv.map fun e => if e.1 == p then (p, n) else e

end Levels

/-- The predicate of the rule's head. -/
def GroundAxiom.head (t : AtomTable) (ax : GroundAxiom) : String := (t.get ax.atom).pred

/-- The derived predicates at level zero, in the order of their first rule. -/
def initialLevels (t : AtomTable) (axioms : List GroundAxiom) : Levels :=
  axioms.foldl (fun lv ax =>
    let h := ax.head t
    if (lv.lookup h).isSome then lv else lv ++ [(h, 0)]) []

/-- The level the rule asks for its head. -/
def requiredLevel (t : AtomTable) (lv : Levels) (ax : GroundAxiom) : Nat :=
  ax.guard.literals.foldl (fun r (a, positive) =>
    match lv.lookup (t.get a).pred with
    | some l => max r (if positive then l else l + 1)
    | none => r) (lv.level (ax.head t))

/-- One round over the rules, raising levels as they ask; also tells whether a level changed. -/
def raiseLevels (t : AtomTable) (top : Nat) (lv : Levels) (axioms : List GroundAxiom) :
    Except GroundingError (Levels × Bool) :=
  axioms.foldlM (fun (lv, changed) ax =>
    let h := ax.head t
    let r := requiredLevel t lv ax
    if r > lv.level h then
      if r ≥ top then throw (.notStratifiable h) else pure (lv.raise h r, true)
    else pure (lv, changed)) (lv, false)

/-- Rounds until no level changes, at most `fuel` of them. Every round that changes a level raises
the sum of the levels, which stays below `n * n` for `n` derived predicates, so `n * n + 1`
rounds are enough. -/
def settleLevels (t : AtomTable) (top : Nat) (axioms : List GroundAxiom) :
    Nat → Levels → Except GroundingError Levels
  | 0, lv => pure lv
  | fuel + 1, lv => do
      let (lv', changed) ← raiseLevels t top lv axioms
      if changed then settleLevels t top axioms fuel lv' else pure lv'

/-- The rules sorted by stratum and the end position of each stratum, or the derived predicate
that depends negatively on itself. -/
def stratify (t : AtomTable) (axioms : List GroundAxiom) :
    Except GroundingError (List GroundAxiom × List Nat) := do
  let lv0 := initialLevels t axioms
  let n := lv0.length
  let lv ← settleLevels t n axioms (n * n + 1) lv0
  let levelOf (ax : GroundAxiom) := lv.level (ax.head t)
  let sorted := axioms.mergeSort fun a b => decide (levelOf a ≤ levelOf b)
  let strataCount := if lv.isEmpty then 0 else (lv.map (·.2)).foldl max 0 + 1
  let ends := (List.range strataCount).map fun i => (sorted.filter fun ax => levelOf ax ≤ i).length
  pure (sorted, ends)

end Pddl
