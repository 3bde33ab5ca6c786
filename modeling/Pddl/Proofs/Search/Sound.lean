import Pddl.Proofs.Search.Frontier
import Pddl.Solve
/-!
# Plans found by the search are valid

Every open node of the search is reached from the initial state by the plan of its path: this
holds of the root, and an expansion only adds children of the node it expands, whose plan is the
parent's plan and one more applicable step (`IsChild.runs`). The plan the search returns is the
plan of a child that is a goal, or the empty plan when the initial state is one. So whatever the
strategy and the limits, a plan the search returns replays to a goal state, and the validator
accepts it; solving never ends on an invalid plan.
-/

namespace Pddl

namespace GroundProblem

variable {gp : GroundProblem}

/-- Each open node is reached from the initial state by the plan of its path. -/
def OpenRuns (gp : GroundProblem) (nodes : List SearchNode) : Prop :=
  ∀ n ∈ nodes, gp.Runs gp.init (gp.planOf n.path).actions n.state

/-- A round keeps the open nodes reached by their plans. -/
theorem OpenRuns.expand {strategy : SearchStrategy} {f : SearchFrontier} {node : SearchNode}
    {rest nodes : List SearchNode} {closed : List State} (hf : gp.OpenRuns f.openNodes)
    (htake : takeNode strategy f.openNodes = some (node, rest))
    (hexp : gp.expand node rest f.closed = (nodes, closed, none)) : gp.OpenRuns nodes := by
  obtain ⟨kids, rfl, -, hkids, -, -⟩ := expand_eq_none hexp
  intro n hn
  rcases List.mem_append.mp hn with hn | hn
  · exact hf n ((takeNode_perm htake).mem_iff.mpr (List.mem_cons_of_mem node hn))
  · exact (hkids n hn).1.runs (hf node (mem_of_takeNode htake))

/-- The root is reached by the empty plan. -/
theorem openRuns_root : gp.OpenRuns [⟨gp.init, []⟩] := by
  intro n hn
  rw [List.mem_singleton.mp hn]
  exact .nil _

/-- A plan that the rounds of the search return leads from the initial state to a goal. -/
theorem searchRounds_solved_runs {strategy : SearchStrategy} {limit : Option Nat} {p : Plan} :
    ∀ (fuel : Nat) (f : SearchFrontier), gp.OpenRuns f.openNodes →
      gp.searchRounds strategy limit fuel f = .solved p →
      ∃ t, gp.Runs gp.init p.actions t ∧ gp.isGoal t = true := by
  intro fuel f hf h
  refine searchRounds_invariant (fun f => gp.OpenRuns f.openNodes)
    (fun r => ∀ p, r = .solved p → ∃ t, gp.Runs gp.init p.actions t ∧ gp.isGoal t = true)
    (fun hf htake hexp => hf.expand htake hexp) ?_ (fun _ _ _ h => by cases h)
    (fun _ h => by cases h) fuel f hf p h
  -- the expansion met a goal: the plan is that of a goal child
  intro f node rest nodes closed path hf htake hexp p h
  cases h
  obtain ⟨child, hchild, rfl, hgoal⟩ := expand_eq_some hexp
  exact ⟨child.state, hchild.runs (hf node (mem_of_takeNode htake)), hgoal⟩

/-- A plan that the search returns leads from the initial state to a goal. -/
theorem search_solved_runs {cfg : Config} {p : Plan} (h : gp.search cfg = .solved p) :
    ∃ t, gp.Runs gp.init p.actions t ∧ gp.isGoal t = true := by
  unfold search at h
  split at h
  · rename_i hgoal
    cases h
    exact ⟨gp.init, .nil _, hgoal⟩
  · exact searchRounds_solved_runs _ _ openRuns_root h

end GroundProblem

/-- The action that switches the lamp on. -/
def switchOn : Action := ⟨"switch-on", [], 1, {}, [0], [], []⟩

/-- A lamp, off at first, that the goal wants on: the smallest problem that needs a plan. -/
def lampProblem : GroundProblem where
  atoms := ⟨[⟨"lit", []⟩]⟩
  init := State.allFalse 1
  goal := { positive := [0] }
  actions := [switchOn]
  axioms := []
  strata := []

/-- Whatever the strategy, the expansion limit and the time limit, a plan that the search returns
passes validation; so solving a problem never fails on an invalid plan. -/
theorem searched_plans_are_valid :
    (∀ (gp : GroundProblem) (cfg : Config) (p : Plan),
      gp.search cfg = .solved p → gp.validate p = .ok ()) ∧
    ∀ (pb : Problem) (cfg : Config) (e : ValidationError), pb.solve cfg ≠ .error (.invalidPlan e) := by
  have hvalid : ∀ (gp : GroundProblem) (cfg : Config) (p : Plan),
      gp.search cfg = .solved p → gp.validate p = .ok () := by
    intro gp cfg p h
    obtain ⟨t, hrun, hgoal⟩ := GroundProblem.search_solved_runs h
    exact GroundProblem.validate_eq_ok_of_runs hrun hgoal
  refine ⟨hvalid, fun pb cfg e h => ?_⟩
  -- the plan is validated only after the search solved the problem, which then passes
  simp only [Problem.solve] at h
  cases hc : pb.check with
  | error e' => simp [hc, bind, Except.bind, throw, throwThe, MonadExceptOf.throw] at h
  | ok u =>
      cases hg : (pb.preprocess cfg).1.ground cfg.grounding with
      | error e' => simp [hc, hg, bind, Except.bind, throw, throwThe, MonadExceptOf.throw] at h
      | ok r =>
          cases hs : r.1.search cfg with
          | solved plan =>
              simp [hc, hg, hs, hvalid r.1 cfg plan hs, bind, Except.bind, pure, Except.pure] at h
          | unsolvable => simp [hc, hg, hs, bind, Except.bind, pure, Except.pure] at h
          | limitReached => simp [hc, hg, hs, bind, Except.bind, pure, Except.pure] at h

theorem lamp_plan_is_valid :
    lampProblem.search {} = .solved ⟨[switchOn]⟩ ∧ lampProblem.validate ⟨[switchOn]⟩ = .ok () := by
  have hsolved : lampProblem.search {} = .solved ⟨[switchOn]⟩ := by decide
  exact ⟨hsolved, searched_plans_are_valid.1 _ _ _ hsolved⟩

end Pddl
