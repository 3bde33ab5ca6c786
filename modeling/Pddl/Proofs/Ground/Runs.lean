import Pddl.Search.Validate
import Mathlib
/-!
# Runs of a ground problem

A run is a sequence of the problem's actions, each applicable in the state that the actions
before it lead to, where each action leads on by `successor`. Plans are judged against runs: a
sequence of actions solves the problem when it is a run from the initial state to a state where
the goal holds.

Main facts: runs compose and split (`Runs.append`, `Runs.split`), a property kept by every step
holds along every run (`Runs.preserves`), and the validator accepts a plan of the problem's
actions exactly when it is a run to a goal state (`validate_eq_ok_iff`).
-/

namespace Pddl

namespace GroundProblem

/-- `gp.Runs s as t`: each action of `as` is one of the problem's, applicable in the state the
actions before it lead to from `s`, and together they lead to `t`. -/
inductive Runs (gp : GroundProblem) : State → List Action → State → Prop
  | nil (s : State) : gp.Runs s [] s
  | cons {s t : State} {a : Action} {as : List Action} (hmem : a ∈ gp.actions)
      (happ : a.isApplicable s = true) (hrest : gp.Runs (gp.successor s a) as t) :
      gp.Runs s (a :: as) t

variable {gp : GroundProblem}

@[simp] theorem runs_nil_iff {s t : State} : gp.Runs s [] t ↔ t = s := by
  constructor
  · rintro ⟨⟩
    rfl
  · rintro rfl
    exact .nil _

theorem runs_cons_iff {s t : State} {a : Action} {as : List Action} :
    gp.Runs s (a :: as) t ↔
      a ∈ gp.actions ∧ a.isApplicable s = true ∧ gp.Runs (gp.successor s a) as t := by
  constructor
  · rintro (_ | ⟨hmem, happ, hrest⟩)
    exact ⟨hmem, happ, hrest⟩
  · rintro ⟨hmem, happ, hrest⟩
    exact .cons hmem happ hrest

namespace Runs

/-- Two runs whose boundary states agree make one run. -/
theorem append {s t u : State} {as bs : List Action} (h₁ : gp.Runs s as t)
    (h₂ : gp.Runs t bs u) : gp.Runs s (as ++ bs) u := by
  induction h₁ with
  | nil => simpa using h₂
  | cons hmem happ _ ih => exact .cons hmem happ (ih h₂)

/-- A run extended by one more action applicable where it ends. -/
theorem snoc {s t : State} {as : List Action} {a : Action} (h : gp.Runs s as t)
    (hmem : a ∈ gp.actions) (happ : a.isApplicable t = true) :
    gp.Runs s (as ++ [a]) (gp.successor t a) :=
  h.append (.cons hmem happ (.nil _))

/-- A run of `as ++ bs` passes through a state between the two parts. -/
theorem split {s u : State} {as bs : List Action} (h : gp.Runs s (as ++ bs) u) :
    ∃ t, gp.Runs s as t ∧ gp.Runs t bs u := by
  induction as generalizing s with
  | nil => exact ⟨s, .nil s, h⟩
  | cons a as ih =>
      obtain ⟨hmem, happ, hrest⟩ := runs_cons_iff.mp h
      obtain ⟨t, hleft, hright⟩ := ih hrest
      exact ⟨t, .cons hmem happ hleft, hright⟩

/-- The last step of a run that is not empty. -/
theorem split_last {s u : State} {as : List Action} {a : Action}
    (h : gp.Runs s (as ++ [a]) u) :
    ∃ t, gp.Runs s as t ∧ a ∈ gp.actions ∧ a.isApplicable t = true ∧ u = gp.successor t a := by
  obtain ⟨t, hleft, hlast⟩ := h.split
  obtain ⟨hmem, happ, hend⟩ := runs_cons_iff.mp hlast
  exact ⟨t, hleft, hmem, happ, (runs_nil_iff.mp hend)⟩

/-- A property of states that every applicable action of the problem keeps holds at the end of
every run that starts where it holds. -/
theorem preserves {P : State → Prop}
    (hstep : ∀ s a, P s → a ∈ gp.actions → a.isApplicable s = true → P (gp.successor s a))
    {s t : State} {as : List Action} (h : gp.Runs s as t) (hs : P s) : P t := by
  induction h with
  | nil => exact hs
  | cons hmem happ _ ih => exact ih (hstep _ _ hs hmem happ)

/-- The validator replays a run to its end. -/
theorem replay {s t : State} {as : List Action} (h : gp.Runs s as t) (step : Nat) :
    gp.replay step s as = .ok t := by
  induction h generalizing step with
  | nil => rfl
  | cons _ happ _ ih =>
      simp only [GroundProblem.replay, happ, if_true]
      exact ih (step + 1)

end Runs

/-- A replay of the problem's actions that reaches its end is a run. -/
theorem runs_of_replay {s t : State} {as : List Action} (hmem : ∀ a ∈ as, a ∈ gp.actions)
    {step : Nat} (h : gp.replay step s as = .ok t) : gp.Runs s as t := by
  induction as generalizing s step with
  | nil =>
      simp only [GroundProblem.replay] at h
      cases h
      exact .nil _
  | cons a as ih =>
      simp only [GroundProblem.replay] at h
      split at h
      · rename_i happ
        exact .cons (hmem a (by simp)) happ
          (ih (fun b hb => hmem b (List.mem_cons_of_mem a hb)) h)
      · cases h

/-- The validator accepts a plan when its replay from the initial state ends in a goal state. -/
theorem validate_eq_ok_iff_replay {p : Plan} :
    gp.validate p = .ok () ↔ ∃ t, gp.replay 1 gp.init p.actions = .ok t ∧ gp.isGoal t = true := by
  simp only [validate]
  cases gp.replay 1 gp.init p.actions with
  | error e => simp [bind, Except.bind]
  | ok t =>
      cases hg : gp.isGoal t <;>
        simp [bind, Except.bind, pure, Except.pure, hg, throw, throwThe, MonadExceptOf.throw]

/-- The validator accepts a plan that is a run from the initial state to a goal state. -/
theorem validate_eq_ok_of_runs {p : Plan} {t : State} (h : gp.Runs gp.init p.actions t)
    (hgoal : gp.isGoal t = true) : gp.validate p = .ok () :=
  validate_eq_ok_iff_replay.mpr ⟨t, h.replay 1, hgoal⟩

/-- For a plan of the problem's own actions, the validator accepts exactly the runs from the
initial state to a goal state. -/
theorem validate_eq_ok_iff {p : Plan} (hmem : ∀ a ∈ p.actions, a ∈ gp.actions) :
    gp.validate p = .ok () ↔ ∃ t, gp.Runs gp.init p.actions t ∧ gp.isGoal t = true := by
  rw [validate_eq_ok_iff_replay]
  constructor
  · rintro ⟨t, hreplay, hgoal⟩
    exact ⟨t, runs_of_replay hmem hreplay, hgoal⟩
  · rintro ⟨t, hrun, hgoal⟩
    exact ⟨t, hrun.replay 1, hgoal⟩

end GroundProblem

end Pddl
