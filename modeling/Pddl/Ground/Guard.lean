import Pddl.Ground.State
/-!
# Ground conditions

A guard is a condition over ground atoms in three parts: atoms that must be true, atoms that must
be false, and an optional formula of literals combined by conjunctions and disjunctions. The
empty guard always holds. The guard whose formula is the empty disjunction never holds.

The relaxed truth of a guard ignores everything that asks for an atom to be false: only its true
atoms and the relaxed truth of its formula count, and a negative literal is relaxed-true. Since
relaxed truth only asks for atoms to be true, it holds in every state with more true atoms.
-/

namespace Pddl

/-- A formula over ground literals. -/
inductive Formula where
  /-- The atom is true (`positive`) or false. -/
  | lit (atom : AtomId) (positive : Bool)
  | and (fs : List Formula)
  | or (fs : List Formula)
  deriving Inhabited

namespace Formula

mutual

def decEq : (f g : Formula) → Decidable (f = g)
  | .lit a p, .lit b q =>
      if h : a = b ∧ p = q then isTrue (by rw [h.1, h.2]) else isFalse (fun e => by cases e; exact h ⟨rfl, rfl⟩)
  | .and fs, .and gs =>
      match decEqAll fs gs with
      | isTrue h => isTrue (by rw [h])
      | isFalse h => isFalse (fun e => by cases e; exact h rfl)
  | .or fs, .or gs =>
      match decEqAll fs gs with
      | isTrue h => isTrue (by rw [h])
      | isFalse h => isFalse (fun e => by cases e; exact h rfl)
  | .lit .., .and _ => isFalse (fun e => by cases e)
  | .lit .., .or _ => isFalse (fun e => by cases e)
  | .and _, .lit .. => isFalse (fun e => by cases e)
  | .and _, .or _ => isFalse (fun e => by cases e)
  | .or _, .lit .. => isFalse (fun e => by cases e)
  | .or _, .and _ => isFalse (fun e => by cases e)

def decEqAll : (fs gs : List Formula) → Decidable (fs = gs)
  | [], [] => isTrue rfl
  | [], _ :: _ => isFalse (fun e => by cases e)
  | _ :: _, [] => isFalse (fun e => by cases e)
  | f :: fs, g :: gs =>
      match decEq f g, decEqAll fs gs with
      | isTrue h, isTrue h' => isTrue (by rw [h, h'])
      | isFalse h, _ => isFalse (fun e => by cases e; exact h rfl)
      | _, isFalse h' => isFalse (fun e => by cases e; exact h' rfl)

end

instance : DecidableEq Formula := decEq

mutual

/-- Whether the formula holds in the state. -/
def holds (s : State) : Formula → Bool
  | .lit a p => s.isSet a == p
  | .and fs => holdsAll s fs
  | .or fs => holdsAny s fs

def holdsAll (s : State) : List Formula → Bool
  | [] => true
  | f :: fs => holds s f && holdsAll s fs

def holdsAny (s : State) : List Formula → Bool
  | [] => false
  | f :: fs => holds s f || holdsAny s fs

end

mutual

/-- Whether the formula holds in the state when negative literals count as true. -/
def relaxedHolds (s : State) : Formula → Bool
  | .lit a p => !p || s.isSet a
  | .and fs => relaxedHoldsAll s fs
  | .or fs => relaxedHoldsAny s fs

def relaxedHoldsAll (s : State) : List Formula → Bool
  | [] => true
  | f :: fs => relaxedHolds s f && relaxedHoldsAll s fs

def relaxedHoldsAny (s : State) : List Formula → Bool
  | [] => false
  | f :: fs => relaxedHolds s f || relaxedHoldsAny s fs

end

mutual

/-- The literals of the formula, left to right, as atoms with their polarity. -/
def literals : Formula → List (AtomId × Bool)
  | .lit a p => [(a, p)]
  | .and fs => literalsAll fs
  | .or fs => literalsAll fs

def literalsAll : List Formula → List (AtomId × Bool)
  | [] => []
  | f :: fs => literals f ++ literalsAll fs

end

mutual

/-- The formula as written: `(p a)`, `(not (p a))`, `(and ...)`, `(or ...)`. -/
def display (t : AtomTable) : Formula → String
  | .lit a true => t.display a
  | .lit a false => "(not " ++ t.display a ++ ")"
  | .and fs => "(and" ++ displayAll t fs ++ ")"
  | .or fs => "(or" ++ displayAll t fs ++ ")"

/-- The formulas, each after a space. -/
def displayAll (t : AtomTable) : List Formula → String
  | [] => ""
  | f :: fs => " " ++ display t f ++ displayAll t fs

end

end Formula

/-- A ground condition: atoms that must be true, atoms that must be false, and a formula. -/
structure Guard where
  positive : List AtomId := []
  negative : List AtomId := []
  formula : Option Formula := none
  deriving DecidableEq, Inhabited

namespace Guard

/-- The guard that never holds. -/
def unsatisfiable : Guard := { formula := some (.or []) }

/-- Whether the guard has no part, so that it always holds. -/
def isTrivial (g : Guard) : Bool := g.positive.isEmpty && g.negative.isEmpty && g.formula.isNone

def holds (g : Guard) (s : State) : Bool :=
  s.entailsAll g.positive && s.entailsNone g.negative &&
    (match g.formula with
     | some f => f.holds s
     | none => true)

/-- Whether the true atoms and the relaxed formula hold. -/
def relaxedHolds (g : Guard) (s : State) : Bool :=
  s.entailsAll g.positive &&
    (match g.formula with
     | some f => f.relaxedHolds s
     | none => true)

/-- The literals of the guard: its true atoms, its false atoms, then those of its formula. -/
def literals (g : Guard) : List (AtomId × Bool) :=
  g.positive.map (·, true) ++ g.negative.map (·, false) ++
    (match g.formula with
     | some f => f.literals
     | none => [])

/-- The guard as written: `(and (p a) (not (q b)) (or ...))`. -/
def display (t : AtomTable) (g : Guard) : String :=
  "(and" ++ String.join (g.positive.map fun a => " " ++ t.display a) ++
    String.join (g.negative.map fun a => " (not " ++ t.display a ++ ")") ++
    (match g.formula with
     | some f => " " ++ f.display t
     | none => "") ++ ")"

end Guard

end Pddl
