import Pddl.Proofs.Ground.Width
/-!
# One round of the search

A round of the forward search takes a node from the open list and expands it. This module says
once what a round can do, so that the invariants of the search are proved from these facts and
never by unfolding the search again:

* taking a node leaves the other open nodes (`takeNode_perm`), and breadth-first takes the first
  one (`takeNode_breadthFirst`);
* every node an expansion makes is a child of the expanded node: its successor by an applicable
  action of the problem, one step further along the plan (`IsChild`);
* an expansion that meets no goal adds children that are not goals, with states new to the
  closed list, and leaves every successor of the node in it (`expand_eq_none`); one that meets a
  goal returns the path of a child that is a goal (`expand_eq_some`).

From these, an invariant that every round keeps carries over the whole run of rounds
(`searchRounds_invariant`): soundness, completeness and the length of breadth-first plans are each
that principle with its own invariant.
-/

namespace Pddl

namespace GroundProblem

variable {gp : GroundProblem}

/-- The actions applicable in a state are the problem's actions at their positions. -/
theorem mem_applicable {s : State} {i : Nat} {a : Action} :
    (i, a) ∈ gp.applicable s ↔ gp.actions[i]? = some a ∧ a.isApplicable s = true := by
  simp only [applicable, List.mem_filterMap, Prod.exists]
  constructor
  · rintro ⟨b, j, hmem, hb⟩
    split at hb
    · cases hb
      exact ⟨List.mem_zipIdx_iff_getElem?.mp hmem, by assumption⟩
    · cases hb
  · rintro ⟨hi, happ⟩
    exact ⟨a, i, List.mem_zipIdx_iff_getElem?.mpr hi, by simp [happ]⟩

theorem exists_mem_applicable {s : State} {a : Action} (ha : a ∈ gp.actions)
    (happ : a.isApplicable s = true) : ∃ i, (i, a) ∈ gp.applicable s := by
  obtain ⟨i, hi, rfl⟩ := List.getElem_of_mem ha
  exact ⟨i, mem_applicable.mpr ⟨List.getElem?_eq_getElem hi, happ⟩⟩

theorem length_planOf (path : List Nat) : (gp.planOf path).length = path.length := by
  simp [planOf, Plan.length]

/-- The plan of a path with one more position in front ends with the action there. -/
theorem planOf_cons {i : Nat} {a : Action} (hi : gp.actions[i]? = some a) (path : List Nat) :
    (gp.planOf (i :: path)).actions = (gp.planOf path).actions ++ [a] := by
  simp [planOf, List.getD_eq_getElem?_getD, hi]

/-- Taking a node leaves the other open nodes. -/
theorem takeNode_perm {strategy : SearchStrategy} {nodes rest : List SearchNode} {n : SearchNode}
    (h : takeNode strategy nodes = some (n, rest)) : nodes.Perm (n :: rest) := by
  cases strategy with
  | breadthFirst =>
      cases nodes with
      | nil => cases h
      | cons m ms =>
          simp only [takeNode, Option.some.injEq, Prod.mk.injEq] at h
          obtain ⟨rfl, rfl⟩ := h
          exact List.Perm.refl _
  | depthFirst =>
      simp only [takeNode] at h
      split at h
      · rename_i m hlast
        simp only [Option.some.injEq, Prod.mk.injEq] at h
        obtain ⟨rfl, rfl⟩ := h
        obtain ⟨ys, rfl⟩ := List.getLast?_eq_some_iff.mp hlast
        rw [List.dropLast_concat]
        exact List.perm_append_singleton _ _
      · cases h

theorem mem_of_takeNode {strategy : SearchStrategy} {nodes rest : List SearchNode} {n : SearchNode}
    (h : takeNode strategy nodes = some (n, rest)) : n ∈ nodes :=
  (takeNode_perm h).mem_iff.mpr List.mem_cons_self

/-- Breadth-first search takes the first open node. -/
theorem takeNode_breadthFirst {nodes rest : List SearchNode} {n : SearchNode} :
    takeNode .breadthFirst nodes = some (n, rest) ↔ nodes = n :: rest := by
  cases nodes with
  | nil => simp [takeNode]
  | cons m ms => simp [takeNode]

/-- A node is taken whenever one is open. -/
theorem takeNode_eq_none_iff {strategy : SearchStrategy} {nodes : List SearchNode} :
    takeNode strategy nodes = none ↔ nodes = [] := by
  cases strategy with
  | breadthFirst => cases nodes <;> simp [takeNode]
  | depthFirst =>
      simp only [takeNode]
      split
      · rename_i m hlast
        simp only [reduceCtorEq, false_iff]
        rintro rfl
        cases hlast
      · rename_i hlast
        simpa using hlast

/-- A child of a node: its successor by an action of the problem applicable in its state, with
the action's position put in front of the path. -/
def IsChild (gp : GroundProblem) (node child : SearchNode) : Prop :=
  ∃ i a, gp.actions[i]? = some a ∧ a.isApplicable node.state = true ∧
    child = ⟨gp.successor node.state a, i :: node.path⟩

namespace IsChild

variable {node child : SearchNode}

theorem length_path (h : gp.IsChild node child) : child.path.length = node.path.length + 1 := by
  obtain ⟨i, a, -, -, rfl⟩ := h
  simp

/-- The plan of a child is the plan of its parent and one more step. -/
theorem runs (h : gp.IsChild node child) (hrun : gp.Runs gp.init (gp.planOf node.path).actions node.state) :
    gp.Runs gp.init (gp.planOf child.path).actions child.state := by
  obtain ⟨i, a, hi, happ, rfl⟩ := h
  rw [planOf_cons hi]
  exact hrun.snoc (List.mem_of_getElem? hi) happ

end IsChild

/-- Once a goal is met, the rest of the expansion changes nothing. -/
theorem foldl_expandStep_found (node : SearchNode) (xs : List (Nat × Action))
    (nodes : List SearchNode) (closed : List State) (path : List Nat) :
    xs.foldl (gp.expandStep node) (nodes, closed, some path) = (nodes, closed, some path) := by
  induction xs with
  | nil => rfl
  | cons x xs ih => exact ih

/-- An expansion of the successors `xs` that meets no goal: what it adds to the open nodes and to
the closed states. -/
theorem foldl_expandStep_none {node : SearchNode} {xs : List (Nat × Action)}
    {nodes nodes' : List SearchNode} {closed closed' : List State}
    (h : xs.foldl (gp.expandStep node) (nodes, closed, none) = (nodes', closed', none)) :
    ∃ kids : List SearchNode, nodes' = nodes ++ kids ∧
      closed' = (kids.map (·.state)).reverse ++ closed ∧
      (∀ k ∈ kids, ∃ x ∈ xs, k = ⟨gp.successor node.state x.2, x.1 :: node.path⟩ ∧
        gp.isGoal k.state = false) ∧
      (closed.Nodup → closed'.Nodup) ∧
      ∀ x ∈ xs, gp.successor node.state x.2 ∈ closed' := by
  induction xs generalizing nodes closed with
  | nil =>
      simp only [List.foldl_nil, Prod.mk.injEq] at h
      obtain ⟨rfl, rfl, -⟩ := h
      exact ⟨[], by simp, by simp, by simp, id, by simp⟩
  | cons x xs ih =>
      rw [List.foldl_cons] at h
      simp only [expandStep] at h
      by_cases hmem : closed.contains (gp.successor node.state x.2) = true
      · -- a state met before: nothing changes
        rw [if_pos hmem] at h
        obtain ⟨kids, hnodes, hclosed, hkids, hnd, hall⟩ := ih h
        refine ⟨kids, hnodes, hclosed, fun k hk => ?_, hnd, ?_⟩
        · obtain ⟨y, hy, hky⟩ := hkids k hk
          exact ⟨y, List.mem_cons_of_mem x hy, hky⟩
        · intro y hy
          rcases List.mem_cons.mp hy with rfl | hy
          · rw [hclosed]
            exact List.mem_append_right _ (List.elem_iff.mp hmem)
          · exact hall y hy
      · rw [if_neg hmem] at h
        by_cases hgoal : gp.isGoal (gp.successor node.state x.2) = true
        · -- a goal would end the expansion with a path
          rw [if_pos hgoal, foldl_expandStep_found] at h
          cases h
        · rw [if_neg hgoal] at h
          obtain ⟨kids, hnodes, hclosed, hkids, hnd, hall⟩ := ih h
          have hfresh : gp.successor node.state x.2 ∉ closed := fun h' =>
            hmem (List.elem_iff.mpr h')
          refine ⟨⟨gp.successor node.state x.2, x.1 :: node.path⟩ :: kids, ?_, ?_, ?_, ?_, ?_⟩
          · simp [hnodes]
          · simp [hclosed]
          · intro k hk
            rcases List.mem_cons.mp hk with rfl | hk
            · exact ⟨x, List.mem_cons_self, rfl, by simpa using hgoal⟩
            · obtain ⟨y, hy, hky⟩ := hkids k hk
              exact ⟨y, List.mem_cons_of_mem x hy, hky⟩
          · intro hclosed_nd
            exact hnd (List.nodup_cons.mpr ⟨hfresh, hclosed_nd⟩)
          · intro y hy
            rcases List.mem_cons.mp hy with rfl | hy
            · rw [hclosed]
              simp
            · exact hall y hy

/-- An expansion of the successors `xs` that meets a goal returns the path of one of them. -/
theorem foldl_expandStep_some {node : SearchNode} {xs : List (Nat × Action)}
    {nodes nodes' : List SearchNode} {closed closed' : List State} {path : List Nat}
    (h : xs.foldl (gp.expandStep node) (nodes, closed, none) = (nodes', closed', some path)) :
    ∃ x ∈ xs, path = x.1 :: node.path ∧ gp.isGoal (gp.successor node.state x.2) = true := by
  induction xs generalizing nodes closed with
  | nil => simp at h
  | cons x xs ih =>
      rw [List.foldl_cons] at h
      simp only [expandStep] at h
      by_cases hmem : closed.contains (gp.successor node.state x.2) = true
      · rw [if_pos hmem] at h
        obtain ⟨y, hy, hpath⟩ := ih h
        exact ⟨y, List.mem_cons_of_mem x hy, hpath⟩
      · rw [if_neg hmem] at h
        by_cases hgoal : gp.isGoal (gp.successor node.state x.2) = true
        · rw [if_pos hgoal, foldl_expandStep_found] at h
          simp only [Prod.mk.injEq, Option.some.injEq] at h
          exact ⟨x, List.mem_cons_self, h.2.2.symm, hgoal⟩
        · rw [if_neg hgoal] at h
          obtain ⟨y, hy, hpath⟩ := ih h
          exact ⟨y, List.mem_cons_of_mem x hy, hpath⟩

/-- What an expansion that meets no goal leaves: the new open nodes are children of the node,
none of them a goal, whose states were not closed, and every successor of the node is closed. -/
theorem expand_eq_none {node : SearchNode} {nodes nodes' : List SearchNode}
    {closed closed' : List State} (h : gp.expand node nodes closed = (nodes', closed', none)) :
    ∃ kids : List SearchNode, nodes' = nodes ++ kids ∧
      closed' = (kids.map (·.state)).reverse ++ closed ∧
      (∀ k ∈ kids, gp.IsChild node k ∧ gp.isGoal k.state = false) ∧
      (closed.Nodup → closed'.Nodup) ∧
      ∀ a ∈ gp.actions, a.isApplicable node.state = true → gp.successor node.state a ∈ closed' := by
  obtain ⟨kids, hnodes, hclosed, hkids, hnd, hall⟩ := foldl_expandStep_none h
  refine ⟨kids, hnodes, hclosed, fun k hk => ?_, hnd, fun a ha happ => ?_⟩
  · obtain ⟨⟨i, b⟩, hx, rfl, hgoal⟩ := hkids k hk
    obtain ⟨hi, happ⟩ := mem_applicable.mp hx
    exact ⟨⟨i, b, hi, happ, rfl⟩, hgoal⟩
  · obtain ⟨i, hi⟩ := exists_mem_applicable ha happ
    exact hall (i, a) hi

/-- An expansion that meets a goal returns the path of a child that is a goal. -/
theorem expand_eq_some {node : SearchNode} {nodes nodes' : List SearchNode}
    {closed closed' : List State} {path : List Nat}
    (h : gp.expand node nodes closed = (nodes', closed', some path)) :
    ∃ child, gp.IsChild node child ∧ child.path = path ∧ gp.isGoal child.state = true := by
  obtain ⟨⟨i, a⟩, hx, rfl, hgoal⟩ := foldl_expandStep_some h
  obtain ⟨hi, happ⟩ := mem_applicable.mp hx
  exact ⟨_, ⟨i, a, hi, happ, rfl⟩, rfl, hgoal⟩

/-- Rounds of the search from a frontier with the invariant `I` end in a verdict with the
property `P`, when every round that goes on keeps `I` and every verdict a round gives from a
frontier with `I` has `P`. Each fact about the search below is this principle applied to its own
invariant. -/
theorem searchRounds_invariant {strategy : SearchStrategy} {limit : Option Nat}
    (I : SearchFrontier → Prop) (P : SearchResult → Prop)
    (hnext : ∀ {f node rest nodes closed}, I f → takeNode strategy f.openNodes = some (node, rest) →
      gp.expand node rest f.closed = (nodes, closed, none) → I ⟨nodes, closed, f.expansions + 1⟩)
    (hsolved : ∀ {f node rest nodes closed path}, I f →
      takeNode strategy f.openNodes = some (node, rest) →
      gp.expand node rest f.closed = (nodes, closed, some path) → P (.solved (gp.planOf path)))
    (hempty : ∀ {f}, I f → f.openNodes = [] → P .unsolvable) (hlimit : P .limitReached) :
    ∀ (fuel : Nat) (f : SearchFrontier), I f → P (gp.searchRounds strategy limit fuel f) := by
  intro fuel
  induction fuel with
  | zero => intro f _; exact hlimit
  | succ fuel ih =>
      intro f hf
      simp only [searchRounds]
      split
      · rename_i hnone
        exact hempty hf (takeNode_eq_none_iff.mp hnone)
      · rename_i node rest htake
        split
        · exact hlimit
        · split
          · rename_i path _ _ hexp
            exact hsolved hf htake hexp
          · rename_i nodes closed hexp
            exact ih _ (hnext hf htake hexp)

end GroundProblem

end Pddl
