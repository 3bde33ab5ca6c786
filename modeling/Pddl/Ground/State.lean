import Pddl.Ground.Atom
/-!
# States

A state tells which atoms are true. It is a row of truth values indexed by atom number; atoms
beyond the row are false. Making an atom true beyond the row widens it, while making such an
atom false leaves the row as it is. Two states are equal when their rows are, width included.
-/

namespace Pddl

/-- The truth values of the atoms, by number. -/
structure State where
  bits : Array Bool := #[]
  deriving DecidableEq, Inhabited

namespace State

/-- The state of `n` atoms, all false. -/
def allFalse (n : Nat) : State := ⟨Array.replicate n false⟩

def width (s : State) : Nat := s.bits.size

def isSet (s : State) (a : AtomId) : Bool := s.bits.getD a false

/-- Gives the atom a truth value, widening the row when it becomes true beyond it. -/
def setTo (s : State) (a : AtomId) (v : Bool) : State :=
  if a < s.bits.size then ⟨s.bits.set! a v⟩
  else if v then ⟨(s.bits ++ Array.replicate (a + 1 - s.bits.size) false).set! a true⟩
  else s

def add (s : State) (a : AtomId) : State := s.setTo a true

def del (s : State) (a : AtomId) : State := s.setTo a false

def entailsAll (s : State) (as : List AtomId) : Bool := as.all s.isSet

def entailsNone (s : State) (as : List AtomId) : Bool := as.all fun a => !s.isSet a

/-- The true atoms, in increasing order. -/
def trueAtoms (s : State) : List AtomId :=
  (List.range s.bits.size).filter s.isSet

/-- The number of true atoms. -/
def count (s : State) : Nat := s.trueAtoms.length

/-- The true atoms as written, in increasing order. -/
def display (t : AtomTable) (s : State) : List String := s.trueAtoms.map t.display

/-- The true atoms as written in one text: `{(p a), (q b)}`. -/
def displayText (t : AtomTable) (s : State) : String :=
  "\x7b" ++ ", ".intercalate (s.display t) ++ "\x7d"

end State

end Pddl
