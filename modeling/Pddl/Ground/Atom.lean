/-!
# Ground atoms and their numbering

A ground atom is a predicate applied to object names. The atoms of a ground problem are numbered
in the order they are first met: interning an atom gives its number, adding it at the end of the
table when it is new. Numbers are positions in the table, so the table also turns a number back
into its atom.
-/

namespace Pddl

/-- A predicate applied to objects, given by their names. -/
structure GroundAtom where
  pred : String
  args : List String
  deriving DecidableEq, Inhabited

/-- The atom as written: `(p a b)`. -/
def GroundAtom.display (a : GroundAtom) : String :=
  "(" ++ a.pred ++ String.join (a.args.map (" " ++ ·)) ++ ")"

/-- The number of an atom: its position in the table. -/
abbrev AtomId := Nat

/-- The atoms met so far, in the order of their numbers. -/
structure AtomTable where
  atoms : List GroundAtom := []
  deriving DecidableEq, Inhabited

namespace AtomTable

def size (t : AtomTable) : Nat := t.atoms.length

/-- The number of the atom, if it is in the table. -/
def find? (t : AtomTable) (a : GroundAtom) : Option AtomId := t.atoms.idxOf? a

/-- The number of the atom, adding it to the table when it is new. -/
def intern (t : AtomTable) (a : GroundAtom) : AtomId × AtomTable :=
  match t.find? a with
  | some i => (i, t)
  | none => (t.size, { atoms := t.atoms ++ [a] })

/-- The atom of a number. -/
def get (t : AtomTable) (i : AtomId) : GroundAtom := t.atoms.getD i default

/-- The atom of a number, as written. -/
def display (t : AtomTable) (i : AtomId) : String := (t.get i).display

end AtomTable

end Pddl
