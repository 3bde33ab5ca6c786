import Pddl.Condition.Basic
/-!
# Transforming traversals

A node transformation is applied to every node of a condition, bottom-up or top-down. One that
returns `none` removes the node from its parent conjunction or disjunction; a removed node
that is the only child of a negation, quantification or conditional effect is replaced by the
empty conjunction. The traversal itself returns `none` when the root is removed.

Bottom-up, a node is transformed after its children and sees them transformed. Top-down, a node
is transformed first and the traversal goes on into the children of the node it became.
Transformations run in a monad, so that a traversal can also record what it visits.
-/

namespace Pddl

/-- The order in which a traversal visits a condition. -/
inductive TraversalOrder where
  /-- Children are transformed before their parent, which sees the transformed children. -/
  | bottomUp
  /-- A node is transformed before its children, which are taken from the transformed node. -/
  | topDown
  deriving DecidableEq, Inhabited

namespace Condition

variable {m : Type → Type} [Monad m]

mutual

/-- Transforms every node, children first. -/
def transformBottomUp (f : Condition → m (Option Condition)) : Condition → m (Option Condition)
  | .and cs => do f (.and (← transformBottomUpAll f cs))
  | .or cs => do f (.or (← transformBottomUpAll f cs))
  | .not c => do f (.not ((← transformBottomUp f c).getD tautology))
  | .quant q vs c => do f (.quant q vs ((← transformBottomUp f c).getD tautology))
  | .when p c => do
      let p' := (← transformBottomUp f p).getD tautology
      let c' := (← transformBottomUp f c).getD tautology
      f (.when p' c')
  | .lit l => f (.lit l)
  | .numEffect e => f (.numEffect e)
  | .compare c => f (.compare c)

/-- Transforms a list of children left to right, dropping the removed ones. -/
def transformBottomUpAll (f : Condition → m (Option Condition)) :
    List Condition → m (List Condition)
  | [] => pure []
  | c :: cs => do
      let r ← transformBottomUp f c
      let rs ← transformBottomUpAll f cs
      pure (match r with
        | some d => d :: rs
        | none => rs)

end

mutual

/-- The number of nodes on the longest path from the root to a leaf. -/
def depth : Condition → Nat
  | .and cs => depthAll cs + 1
  | .or cs => depthAll cs + 1
  | .not c => depth c + 1
  | .quant _ _ c => depth c + 1
  | .when p c => max (depth p) (depth c) + 1
  | .lit _ => 1
  | .numEffect _ => 1
  | .compare _ => 1

def depthAll : List Condition → Nat
  | [] => 0
  | c :: cs => max (depth c) (depthAll cs)

end

/-- Transforms every node, parents first, going at most `fuel` levels deep. -/
def transformTopDownFuel (f : Condition → m (Option Condition)) : Nat → Condition → m (Option Condition)
  | 0, c => pure (some c)
  | n + 1, c => do
      match ← f c with
      | none => pure none
      | some (.and cs) => pure (some (.and (← cs.filterMapM (transformTopDownFuel f n))))
      | some (.or cs) => pure (some (.or (← cs.filterMapM (transformTopDownFuel f n))))
      | some (.not d) => pure (some (.not ((← transformTopDownFuel f n d).getD tautology)))
      | some (.quant q vs d) =>
          pure (some (.quant q vs ((← transformTopDownFuel f n d).getD tautology)))
      | some (.when p d) => do
          let p' := (← transformTopDownFuel f n p).getD tautology
          let d' := (← transformTopDownFuel f n d).getD tautology
          pure (some (.when p' d'))
      | some leaf => pure (some leaf)

/-- Transforms every node, parents first. The traversal goes as deep as the condition, which
is enough for every transformation that never returns a deeper tree than it receives. -/
def transformTopDown (f : Condition → m (Option Condition)) (c : Condition) : m (Option Condition) :=
  transformTopDownFuel f (c.depth + 1) c

/-- The kind of the node: `and`, `or`, `not`, `forall`, `exists`, `when`, `numeric`, `cmp`, or
`lit:p` for a literal of the predicate `p`. -/
def kindName : Condition → String
  | .lit l => "lit:" ++ l.pred
  | .and _ => "and"
  | .or _ => "or"
  | .not _ => "not"
  | .quant q _ _ => q.keyword
  | .when .. => "when"
  | .numEffect _ => "numeric"
  | .compare _ => "cmp"

/-- Whether the node is of one of the kinds; the kind `lit` takes in every literal. -/
def hasKindIn (kinds : List String) (c : Condition) : Bool :=
  kinds.contains c.kindName ||
    (match c with
     | .lit _ => kinds.contains "lit"
     | _ => false)

/-- Transforms every node in the given order. -/
def traverse (f : Condition → m (Option Condition)) : TraversalOrder → Condition → m (Option Condition)
  | .bottomUp => transformBottomUp f
  | .topDown => transformTopDown f

end Condition

end Pddl
