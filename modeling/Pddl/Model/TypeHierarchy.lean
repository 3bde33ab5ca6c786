/-!
# Type hierarchy

Object types form a hierarchy rooted at `object`. A type may have several parents (multiple
inheritance), and a parent may be declared before or after its children: naming an unknown
parent records it as a direct subtype of the root.

`isSubtype a b` holds when `a` is `b`, when `b` is the root, or when `b` can be reached from `a`
by following parent links. Reachability is computed over the finite list of declared types, so
it terminates also on hierarchies with cycles.

The planner itself tests subtypes by recursion over the parents, tried in order, with no record
of the types it has been through (`subtypeSearch`). Declarations may make parent links go round
in a cycle, and such a test that enters a type it is already inside of goes round for ever; it
is the only way the test fails to end. Wherever it ends, it answers as `isSubtype`.
-/

namespace Pddl

/-- Name of the root of the type hierarchy. Every type is a subtype of it. -/
def topType : String := "object"

/-- Declared types, each with its direct parents in declaration order. The root is always
declared, with no parent. -/
structure TypeHierarchy where
  entries : List (String × List String) := [(topType, [])]
  deriving DecidableEq, Inhabited

namespace TypeHierarchy

/-- The direct parents of a declared type, or `none` for an undeclared one. -/
def parents? (h : TypeHierarchy) (t : String) : Option (List String) :=
  (h.entries.find? (·.1 == t)).map (·.2)

/-- The direct parents of `t`, empty when `t` is not declared. -/
def parentsOf (h : TypeHierarchy) (t : String) : List String :=
  (h.parents? t).getD []

/-- Whether `t` is a declared type. -/
def contains (h : TypeHierarchy) (t : String) : Bool :=
  h.entries.any (·.1 == t)

/-- Names of all declared types. -/
def names (h : TypeHierarchy) : List String :=
  h.entries.map (·.1)

/-- Records `t` with the given parent (the root when none is given). An undeclared parent is
first declared as a direct subtype of the root. Declaring the root itself changes nothing, and
declaring a known type again adds the parent to its parents if it is new. -/
def addType (h : TypeHierarchy) (t : String) (parent : Option String) : TypeHierarchy :=
  if t = topType then h
  else
    let p := parent.getD topType
    let h := if h.contains p then h else ⟨h.entries ++ [(p, [topType])]⟩
    if h.contains t then
      ⟨h.entries.map fun e => if e.1 == t && !e.2.contains p then (e.1, e.2 ++ [p]) else e⟩
    else ⟨h.entries ++ [(t, [p])]⟩

/-- The nodes of `remaining` reachable from the `pending` seeds through `next`, each listed
once, in the order they are discovered. Every step removes one node from `remaining`. -/
def gather (next : String → List String) (remaining pending : List String) : List String :=
  match _found : pending.find? remaining.contains with
  | none => []
  | some selected => selected :: gather next (remaining.erase selected) (next selected ++ pending)
termination_by remaining.length
decreasing_by
  have member : selected ∈ remaining := List.contains_iff_mem.mp (List.find?_some _found)
  have smaller := List.length_erase_of_mem member
  have positive := List.length_pos_of_mem member
  omega

/-- The declared types reachable from `t` by following zero or more parent links. -/
def ancestors (h : TypeHierarchy) (t : String) : List String :=
  gather h.parentsOf h.names [t]

/-- Whether `a` is `b` or one of its direct or indirect subtypes. -/
def isSubtype (h : TypeHierarchy) (a b : String) : Bool :=
  a == b || b == topType || (h.ancestors a).contains b

/-- A declared type is one of the names. -/
theorem mem_names_of_parents? {h : TypeHierarchy} {t : String} {ps : List String}
    (hp : h.parents? t = some ps) : t ∈ h.names := by
  unfold parents? at hp
  cases hf : h.entries.find? (·.1 == t) with
  | none => simp [hf] at hp
  | some e =>
      have he := List.mem_of_find?_eq_some hf
      have het : e.1 = t := by simpa using List.find?_some hf
      exact List.mem_map.mpr ⟨e, he, het⟩

/-- The answer of parents tried in order: the first success, unless a test that never ends comes
before it; no success is a failure. -/
def firstSuccess : List (Option Bool) → Option Bool
  | [] => some false
  | some true :: _ => some true
  | some false :: rest => firstSuccess rest
  | none :: _ => none

/-- The recursive subtype test: `a` is below `b` when it is `b`, when `b` is the root, or when one
of its parents, tried in order, is below `b`. `inside` lists the types whose test is under way;
a test that enters one of them again would go round for ever, and its answer is `none`. -/
def subtypeSearch (h : TypeHierarchy) (b : String) (inside : List String) (a : String) :
    Option Bool :=
  if a == b || b == topType then some true
  else if inside.contains a then none
  else
    match _ : h.parents? a with
    | none => some false
    | some ps => firstSuccess (ps.map fun p => subtypeSearch h b (a :: inside) p)
termination_by (h.names.filter fun t => !inside.contains t).length
decreasing_by
  -- `a` is declared and not yet inside, so one declared type fewer is left outside
  have ha : a ∈ h.names.filter fun t => !inside.contains t :=
    List.mem_filter.mpr ⟨mem_names_of_parents? ‹h.parents? a = some ps›, by simpa using ‹¬inside.contains a = true›⟩
  have hsame : (h.names.filter fun t => !(a :: inside).contains t) =
      (h.names.filter fun t => !inside.contains t).filter fun t => !decide (t = a) := by
    rw [List.filter_filter]
    congr 1
    funext t
    simp
  rw [hsame]
  refine Nat.lt_of_le_of_ne (List.length_filter_le _ _) fun heq => ?_
  have := (List.length_filter_eq_length_iff.mp heq) a ha
  simp at this

end TypeHierarchy

end Pddl
