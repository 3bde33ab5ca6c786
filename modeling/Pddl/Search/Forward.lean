import Pddl.Config
import Pddl.Ground.Task
import Pddl.Search.Plan
/-!
# Forward search

An uninformed search in the states of a ground problem, from the initial state. When the initial
state is a goal, the empty plan solves the problem. Otherwise a list of open nodes starts with
the initial state, and each round takes a node, the first one (breadth-first) or the last one
(depth-first), and expands it: the successor by each applicable action, in action order, that no
node had yet is recorded and, unless it is a goal, added at the end of the list. The first goal
met this way ends the search with the plan that leads to it.

The search gives up when the number of expanded nodes reaches the expansion limit, and finds
the problem unsolvable when no node is left. The time limit is not counted here: elapsed time
is not a function of the problem.
-/

namespace Pddl

/-- The outcome of a search. -/
inductive SearchResult where
  | solved (plan : Plan)
  | unsolvable
  /-- The search stopped at its limit before reaching a conclusion. -/
  | limitReached
  deriving DecidableEq, Inhabited

/-- A state with the positions of the actions that lead to it, the last one first. -/
structure SearchNode where
  state : State
  path : List Nat
  deriving Inhabited

/-- Where a search stands between two rounds. -/
structure SearchFrontier where
  openNodes : List SearchNode
  /-- Every state a node was made for. -/
  closed : List State
  expansions : Nat
  deriving Inhabited

namespace GroundProblem

/-- The plan of the action positions, in order. -/
def planOf (gp : GroundProblem) (path : List Nat) : Plan :=
  ⟨path.reverse.map fun i => gp.actions.getD i default⟩

/-- The next node to expand and the remaining ones. -/
def takeNode (strategy : SearchStrategy) (nodes : List SearchNode) : Option (SearchNode × List SearchNode) :=
  match strategy with
  | .breadthFirst =>
      match nodes with
      | [] => none
      | n :: rest => some (n, rest)
  | .depthFirst =>
      match nodes.getLast? with
      | some n => some (n, nodes.dropLast)
      | none => none

/-- One successor in the expansion of a node: a state no node had yet is recorded, and it ends
the expansion when it is a goal. -/
def expandStep (gp : GroundProblem) (node : SearchNode)
    (acc : List SearchNode × List State × Option (List Nat)) (ia : Nat × Action) :
    List SearchNode × List State × Option (List Nat) :=
  match acc with
  | (_, _, some _) => acc
  | (nodes, closed, none) =>
      let s := gp.successor node.state ia.2
      if closed.contains s then acc
      else
        let child : SearchNode := ⟨s, ia.1 :: node.path⟩
        if gp.isGoal s then (nodes, s :: closed, some child.path)
        else (nodes ++ [child], s :: closed, none)

/-- Expands a node: the new successors, the closed states, and the path of the first goal met. -/
def expand (gp : GroundProblem) (node : SearchNode) (nodes : List SearchNode) (closed : List State) :
    List SearchNode × List State × Option (List Nat) :=
  (gp.applicable node.state).foldl (gp.expandStep node) (nodes, closed, none)

/-- Rounds of the search, at most `fuel` of them. Every round takes a node, and a node is made
at most once per state, so one round more than there are reachable states is enough. -/
def searchRounds (gp : GroundProblem) (strategy : SearchStrategy) (limit : Option Nat) :
    Nat → SearchFrontier → SearchResult
  | 0, _ => .limitReached
  | fuel + 1, f =>
      match takeNode strategy f.openNodes with
      | none => .unsolvable
      | some (node, rest) =>
          if limit.any (f.expansions ≥ ·) then .limitReached
          else
            match gp.expand node rest f.closed with
            | (_, _, some path) => .solved (gp.planOf path)
            | (nodes, closed, none) =>
                searchRounds gp strategy limit fuel ⟨nodes, closed, f.expansions + 1⟩

/-- The atoms a step can make true: the additions of the actions and of their conditional
effects, and the heads of the rules. -/
def madeTrue (gp : GroundProblem) : List AtomId :=
  gp.actions.flatMap (fun a => a.add ++ a.cond.flatMap (·.add)) ++ gp.axioms.map (·.atom)

/-- A width that no state reachable from the initial state exceeds: a step widens a state only
to make one of `madeTrue` true. -/
def widthBound (gp : GroundProblem) : Nat :=
  gp.madeTrue.foldr (fun a w => max (a + 1) w) gp.init.width

/-- Searches for a plan with the strategy and expansion limit of the configuration. There are
at most `(w + 1) * 2 ^ w` states of width at most `w`, which bounds the rounds. -/
def search (gp : GroundProblem) (cfg : Config) : SearchResult :=
  if gp.isGoal gp.init then .solved {}
  else
    searchRounds gp cfg.search cfg.maxExpansions ((gp.widthBound + 1) * Nat.pow 2 gp.widthBound + 1)
      ⟨[⟨gp.init, []⟩], [gp.init], 0⟩

end GroundProblem

end Pddl
