import Pddl.Combinations.Product
import Pddl.Problem.Basic
/-!
# Enumerating combinations one at a time

`Combinations` walks through the cartesian product of candidate lists like an odometer: the
last position advances fastest, and a position that passes its last candidate goes back to the
first one and carries into the position before it. A fresh enumeration first loads the first
candidate of every position; a product with an empty candidate list is exhausted at once, and
the product of no list has exactly one (empty) combination.

The number of combinations saturates at `2^64 - 1`, the largest machine size.
-/

namespace Pddl

/-- Where an enumeration stands. -/
inductive Combinations.Status where
  /-- No combination was asked for since creation or the last reset. -/
  | fresh
  /-- The indices designate the current combination. -/
  | valid
  | exhausted
  deriving DecidableEq, Inhabited

/-- An enumeration of the cartesian product of candidate lists. -/
structure Combinations where
  candidates : List (List Argument)
  indices : List Nat
  status : Combinations.Status
  deriving Inhabited

namespace Combinations

/-- The largest machine size, at which counts saturate. -/
def sizeLimit : Nat := Nat.pow 2 64 - 1

/-- A fresh enumeration of the product of the candidate lists. -/
def ofCandidates (cands : List (List Argument)) : Combinations :=
  ⟨cands, cands.map fun _ => 0, .fresh⟩

/-- A fresh enumeration of the well-typed bindings of the variables: each position ranges over
the objects whose type is compatible with the variable's, in declaration order. -/
def ofParams (pb : Problem) (vars : List Param) : Combinations :=
  ofCandidates (pb.candidates vars)

/-- The number of combinations of a complete enumeration, saturating. -/
def count (it : Combinations) : Nat :=
  it.candidates.foldl (fun acc c => min sizeLimit (acc * c.length)) 1

/-- The tuple designated by indices. -/
def pick : List (List Argument) → List Nat → List Argument
  | c :: cs, i :: is => c.getD i default :: pick cs is
  | _, _ => []

/-- The next index tuple in lexicographic order, or `none` when the last one is passed. -/
def advance : List (List Argument) → List Nat → Option (List Nat)
  | c :: cs, i :: is =>
      match advance cs is with
      | some is' => some (i :: is')
      | none => if i + 1 < c.length then some ((i + 1) :: is.map fun _ => 0) else none
  | _, _ => none

/-- The current combination, if any. -/
def get? (it : Combinations) : Option (List Argument) :=
  match it.status with
  | .valid => some (pick it.candidates it.indices)
  | _ => none

/-- Moves to the next combination. -/
def step (it : Combinations) : Combinations :=
  match it.status with
  | .fresh =>
      if it.candidates.any List.isEmpty then { it with status := .exhausted }
      else { it with indices := it.candidates.map fun _ => 0, status := .valid }
  | .valid =>
      match advance it.candidates it.indices with
      | some is => { it with indices := is }
      | none => { it with indices := it.candidates.map fun _ => 0, status := .exhausted }
  | .exhausted => it

/-- Moves to the next combination and returns it. -/
def next (it : Combinations) : Option (List Argument) × Combinations :=
  let it := it.step
  (it.get?, it)

/-- Restarts the enumeration. -/
def reset (it : Combinations) : Combinations :=
  { it with indices := it.candidates.map fun _ => 0, status := .fresh }

/-- Bounds on the number of combinations still to come. -/
def sizeHint (it : Combinations) : Nat × Nat :=
  match it.status with
  | .fresh => (it.count, it.count)
  | .valid => (0, it.count)
  | .exhausted => (0, 0)

/-- All combinations still to come, with the exhausted enumeration. At most the whole product
remains, so `fuel` is the number of calls to `next` that can still return one. -/
def restFuel : Nat → Combinations → List (List Argument) × Combinations
  | 0, it => ([], it)
  | n + 1, it =>
      match it.next with
      | (some t, it') =>
          let (ts, it'') := restFuel n it'
          (t :: ts, it'')
      | (none, it') => ([], it')

/-- The exact number of combinations of a complete enumeration. -/
def size (it : Combinations) : Nat :=
  it.candidates.foldl (fun acc c => acc * c.length) 1

/-- All combinations still to come. -/
def rest (it : Combinations) : List (List Argument) × Combinations :=
  restFuel (it.size + 1) it

end Combinations

end Pddl
