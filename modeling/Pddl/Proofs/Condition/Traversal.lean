import Pddl.Proofs.Condition.Closed
/-!
# Traversal orders

A traversal applies a node transformation to every node of a condition. Run with a
transformation that records the node it receives, it shows where each node is visited:

* bottom-up, the nodes are visited in post-order, each after its children, and top-down in
  pre-order, each before them; in both the children of a conjunction or disjunction come left to
  right and the prerequisite of a conditional effect before its effect (`postorder`,
  `preorder`);
* a transformation that keeps every node gives the condition back.

A transformation that removes the nodes of some kinds prunes the condition bottom-up
(`pruned`): a removed child of a conjunction or disjunction is left out, one under a negation,
a quantification or a conditional effect becomes the empty conjunction, and the traversal has no
result when the root, with its children rewritten, is of a removed kind. Rewriting the children
never changes the kind of a node (`kindName_pruned`), and each node is recorded as it stands
once its children are rewritten.

Main statement: `traversal_visits_each_node_once`.
-/

namespace Pddl

namespace Condition

mutual

/-- The nodes of the condition, each before its children. -/
def preorder : Condition → List Condition
  | .and cs => .and cs :: preorderAll cs
  | .or cs => .or cs :: preorderAll cs
  | .not c => .not c :: preorder c
  | .quant q vs c => .quant q vs c :: preorder c
  | .when p c => .when p c :: (preorder p ++ preorder c)
  | .lit l => [.lit l]
  | .numEffect e => [.numEffect e]
  | .compare c => [.compare c]

def preorderAll : List Condition → List Condition
  | [] => []
  | c :: cs => preorder c ++ preorderAll cs

end

mutual

/-- The nodes of the condition, each after its children. -/
def postorder : Condition → List Condition
  | .and cs => postorderAll cs ++ [.and cs]
  | .or cs => postorderAll cs ++ [.or cs]
  | .not c => postorder c ++ [.not c]
  | .quant q vs c => postorder c ++ [.quant q vs c]
  | .when p c => postorder p ++ postorder c ++ [.when p c]
  | .lit l => [.lit l]
  | .numEffect e => [.numEffect e]
  | .compare c => [.compare c]

def postorderAll : List Condition → List Condition
  | [] => []
  | c :: cs => postorder c ++ postorderAll cs

end

section Pruning

variable (kinds : List String)

mutual

/-- The condition without its nodes of the kinds: a child of such a kind is left out of a
conjunction or disjunction and replaced by the empty conjunction under a negation, a
quantification or a conditional effect. The root itself is kept. -/
def pruned : Condition → Condition
  | .and cs => .and (prunedAll cs)
  | .or cs => .or (prunedAll cs)
  | .not c => .not (if c.hasKindIn kinds then tautology else pruned c)
  | .quant q vs c => .quant q vs (if c.hasKindIn kinds then tautology else pruned c)
  | .when p c =>
      .when (if p.hasKindIn kinds then tautology else pruned p)
        (if c.hasKindIn kinds then tautology else pruned c)
  | .lit l => .lit l
  | .numEffect e => .numEffect e
  | .compare c => .compare c

/-- The children that are not of the kinds, each pruned. -/
def prunedAll : List Condition → List Condition
  | [] => []
  | c :: cs => if c.hasKindIn kinds then prunedAll cs else pruned c :: prunedAll cs

end

/-- Rewriting the children keeps the kind of the node. -/
@[simp] theorem kindName_pruned (c : Condition) : (c.pruned kinds).kindName = c.kindName := by
  cases c <;> rfl

@[simp] theorem hasKindIn_pruned (c : Condition) :
    (c.pruned kinds).hasKindIn kinds = c.hasKindIn kinds := by
  cases c <;> rfl

end Pruning

@[simp] theorem hasKindIn_nil (c : Condition) : c.hasKindIn [] = false := by
  cases c <;> rfl

mutual

/-- Removing no kind prunes nothing. -/
@[simp] theorem pruned_nil : ∀ c : Condition, c.pruned [] = c
  | .and cs => by rw [pruned, prunedAll_nil]
  | .or cs => by rw [pruned, prunedAll_nil]
  | .not c => by simp only [pruned, hasKindIn_nil, pruned_nil c, Bool.false_eq_true, if_false]
  | .quant q vs c => by simp only [pruned, hasKindIn_nil, pruned_nil c, Bool.false_eq_true, if_false]
  | .when p c => by
      simp only [pruned, hasKindIn_nil, pruned_nil p, pruned_nil c, Bool.false_eq_true, if_false]
  | .lit _ => rfl
  | .numEffect _ => rfl
  | .compare _ => rfl

@[simp] theorem prunedAll_nil : ∀ cs : List Condition, prunedAll [] cs = cs
  | [] => rfl
  | c :: cs => by
      simp only [prunedAll, hasKindIn_nil, pruned_nil c, prunedAll_nil cs, Bool.false_eq_true, if_false]

end

/-- The transformation that records each node it receives and removes those of the kinds. -/
def recordDropping (kinds : List String) (d : Condition) : StateM (List Condition) (Option Condition) := do
  modify (· ++ [d])
  return if d.hasKindIn kinds then none else some d

theorem run_recordDropping (kinds : List String) (d : Condition) (log : List Condition) :
    (recordDropping kinds d).run log = pure (if d.hasKindIn kinds then none else some d, log ++ [d]) :=
  rfl

/-- A step of the recording transformation whose run is known is followed by the rest. -/
theorem run_bind_of_run {α β : Type} {x : StateM (List Condition) α}
    {f : α → StateM (List Condition) β} {log log' : List Condition} {a : α}
    (h : x.run log = pure (a, log')) : (x >>= f).run log = (f a).run log' := by
  rw [StateT.run_bind, h, pure_bind]

/-! ## Bottom-up -/

section BottomUp

variable (kinds : List String)

/-- The empty conjunction stands in for a removed child. -/
theorem getD_removed (c : Condition) :
    (if (c.pruned kinds).hasKindIn kinds then none else some (c.pruned kinds)).getD tautology =
      if c.hasKindIn kinds then tautology else c.pruned kinds := by
  rw [hasKindIn_pruned]
  split <;> rfl

mutual

/-- Bottom-up, each node is recorded in post-order as it stands once its children are pruned,
and the result is the pruned condition, unless it is of a removed kind. -/
theorem run_transformBottomUp_recordDropping : ∀ (c : Condition) (log : List Condition),
    (c.transformBottomUp (recordDropping kinds)).run log =
      pure (if (c.pruned kinds).hasKindIn kinds then none else some (c.pruned kinds),
        log ++ c.postorder.map (pruned kinds))
  | .and cs, log => by
      rw [transformBottomUp, run_bind_of_run (run_transformBottomUpAll_recordDropping cs log),
        run_recordDropping]
      simp only [postorder, List.map_append, List.map_cons, List.map_nil, List.append_assoc]
      rw [pruned]
  | .or cs, log => by
      rw [transformBottomUp, run_bind_of_run (run_transformBottomUpAll_recordDropping cs log),
        run_recordDropping]
      simp only [postorder, List.map_append, List.map_cons, List.map_nil, List.append_assoc]
      rw [pruned]
  | .not c, log => by
      rw [transformBottomUp, run_bind_of_run (run_transformBottomUp_recordDropping c log),
        run_recordDropping, getD_removed]
      simp only [postorder, List.map_append, List.map_cons, List.map_nil, List.append_assoc]
      rw [pruned]
  | .quant q vs c, log => by
      rw [transformBottomUp, run_bind_of_run (run_transformBottomUp_recordDropping c log),
        run_recordDropping, getD_removed]
      simp only [postorder, List.map_append, List.map_cons, List.map_nil, List.append_assoc]
      rw [pruned]
  | .when p c, log => by
      rw [transformBottomUp, run_bind_of_run (run_transformBottomUp_recordDropping p log),
        run_bind_of_run (run_transformBottomUp_recordDropping c _), run_recordDropping,
        getD_removed, getD_removed]
      simp only [postorder, List.map_append, List.map_cons, List.map_nil, List.append_assoc]
      rw [pruned]
  | .lit _, _ => rfl
  | .numEffect _, _ => rfl
  | .compare _, _ => rfl

/-- Along a list of children, the removed ones are left out. -/
theorem run_transformBottomUpAll_recordDropping : ∀ (cs : List Condition) (log : List Condition),
    (transformBottomUpAll (recordDropping kinds) cs).run log =
      pure (prunedAll kinds cs, log ++ (postorderAll cs).map (pruned kinds))
  | [], log => by simp [transformBottomUpAll, prunedAll, postorderAll]
  | c :: cs, log => by
      rw [transformBottomUpAll, run_bind_of_run (run_transformBottomUp_recordDropping c log),
        run_bind_of_run (run_transformBottomUpAll_recordDropping cs _), StateT.run_pure,
        hasKindIn_pruned]
      cases h : c.hasKindIn kinds <;> simp [prunedAll, postorderAll, h]

end

end BottomUp

/-! ## Top-down -/

theorem one_le_depth (c : Condition) : 1 ≤ c.depth := by
  cases c <;> simp [depth]

/-- The recording transformation that removes nothing gives back the node it receives. -/
theorem run_record (d : Condition) (log : List Condition) :
    (recordDropping [] d).run log = pure (some d, log ++ [d]) := by
  simp [run_recordDropping]

mutual

/-- Top-down, with a recording transformation that removes nothing and as many levels as the
condition is deep, each node is recorded in pre-order and the condition comes back whole. -/
theorem run_transformTopDownFuel_record : ∀ (c : Condition) (n : Nat) (log : List Condition),
    c.depth ≤ n →
      (transformTopDownFuel (recordDropping []) n c).run log = pure (some c, log ++ c.preorder)
  | c, 0, _, h => absurd h (Nat.not_le.mpr (one_le_depth c))
  | .and cs, n + 1, log, h => by
      have hcs : depthAll cs ≤ n := by simpa [depth] using h
      rw [transformTopDownFuel, run_bind_of_run (run_record _ log)]
      simp only
      rw [run_bind_of_run (run_filterMapM_record cs n _ hcs), StateT.run_pure]
      simp [preorder]
  | .or cs, n + 1, log, h => by
      have hcs : depthAll cs ≤ n := by simpa [depth] using h
      rw [transformTopDownFuel, run_bind_of_run (run_record _ log)]
      simp only
      rw [run_bind_of_run (run_filterMapM_record cs n _ hcs), StateT.run_pure]
      simp [preorder]
  | .not c, n + 1, log, h => by
      have hc : c.depth ≤ n := by simpa [depth] using h
      rw [transformTopDownFuel, run_bind_of_run (run_record _ log)]
      simp only
      rw [run_bind_of_run (run_transformTopDownFuel_record c n _ hc), StateT.run_pure]
      simp [preorder]
  | .quant q vs c, n + 1, log, h => by
      have hc : c.depth ≤ n := by simpa [depth] using h
      rw [transformTopDownFuel, run_bind_of_run (run_record _ log)]
      simp only
      rw [run_bind_of_run (run_transformTopDownFuel_record c n _ hc), StateT.run_pure]
      simp [preorder]
  | .when p c, n + 1, log, h => by
      have hp : p.depth ≤ n := by simp [depth] at h; omega
      have hc : c.depth ≤ n := by simp [depth] at h; omega
      rw [transformTopDownFuel, run_bind_of_run (run_record _ log)]
      simp only
      rw [run_bind_of_run (run_transformTopDownFuel_record p n _ hp),
        run_bind_of_run (run_transformTopDownFuel_record c n _ hc), StateT.run_pure]
      simp [preorder]
  | .lit l, n + 1, log, _ => by
      rw [transformTopDownFuel, run_bind_of_run (run_record _ log)]
      rfl
  | .numEffect e, n + 1, log, _ => by
      rw [transformTopDownFuel, run_bind_of_run (run_record _ log)]
      rfl
  | .compare c, n + 1, log, _ => by
      rw [transformTopDownFuel, run_bind_of_run (run_record _ log)]
      rfl

theorem run_filterMapM_record : ∀ (cs : List Condition) (n : Nat) (log : List Condition),
    depthAll cs ≤ n →
      (cs.filterMapM (transformTopDownFuel (recordDropping []) n)).run log =
        pure (cs, log ++ preorderAll cs)
  | [], _, log, _ => by simp [preorderAll]
  | c :: cs, n, log, h => by
      have hc : c.depth ≤ n := by simp [depthAll] at h; omega
      have hcs : depthAll cs ≤ n := by simp [depthAll] at h; omega
      rw [List.filterMapM_cons, run_bind_of_run (run_transformTopDownFuel_record c n _ hc)]
      simp only
      rw [run_bind_of_run (run_filterMapM_record cs n _ hcs), StateT.run_pure]
      simp [preorderAll]

end

/-- Traversing a condition in either order calls the transformation once per node: bottom-up in
post-order and top-down in pre-order, with the children of a conjunction or disjunction left to
right and the prerequisite of a conditional effect before its effect; a transformation that keeps
every node gives the condition back. Bottom-up, a transformation that removes the nodes of some
kinds leaves them out of conjunctions and disjunctions, puts the empty conjunction in their place
under the other nodes, and gives no result exactly when the root, its children rewritten, is of
such a kind; each node is recorded with its children rewritten. -/
theorem traversal_visits_each_node_once :
    (∀ (c : Condition) (log : List Condition),
        (c.traverse (recordDropping []) .bottomUp).run log = pure (some c, log ++ c.postorder)) ∧
      (∀ (c : Condition) (log : List Condition),
        (c.traverse (recordDropping []) .topDown).run log = pure (some c, log ++ c.preorder)) ∧
      ∀ (kinds : List String) (c : Condition) (log : List Condition),
        (c.traverse (recordDropping kinds) .bottomUp).run log =
          pure (if (c.pruned kinds).hasKindIn kinds then none else some (c.pruned kinds),
            log ++ c.postorder.map (pruned kinds)) := by
  refine ⟨fun c log => ?_, fun c log => ?_, fun kinds c log => ?_⟩
  · simpa [traverse, List.map_id'' pruned_nil] using run_transformBottomUp_recordDropping [] c log
  · exact run_transformTopDownFuel_record c (c.depth + 1) log (Nat.le_succ _)
  · exact run_transformBottomUp_recordDropping kinds c log

/-- Removing the numeric effects of `(and (clear a) (increase (total-cost) 3) (and (increase
(total-cost) 2)))` leaves `(and (clear a) (and))`. -/
example :
    (Condition.and [.lit ⟨"clear", [.const ⟨"a", "block"⟩], false⟩,
        .numEffect ⟨⟨"total-cost", []⟩, .increase, .const 3⟩,
        .and [.numEffect ⟨⟨"total-cost", []⟩, .increase, .const 2⟩]]).pruned ["numeric"] =
      .and [.lit ⟨"clear", [.const ⟨"a", "block"⟩], false⟩, .and []] := by
  decide

end Condition

end Pddl
