import Pddl.Proofs.Ground.Layers
/-!
# The delete relaxation

Ignoring what a ground condition asks to be false, and what an action makes false, gives an
over-approximation of execution that only grows with the state. The relaxed-planning-graph
grounding keeps exactly the instances whose relaxed precondition comes to hold, so that no
instance applicable in a reachable state is missed; this module gives the facts it rests on.

* What holds also holds relaxed (`Formula.relaxedHolds_of_holds`, `Guard.relaxedHolds_of_holds`).
* Relaxed truth and relaxed additions grow with the state (`Guard.relaxedHolds_mono`,
  `Action.relaxedAdds_mono`).
* An atom true after an action was true before, or the action adds it when deletions are ignored
  (`Action.mem_relaxedAdds_of_isSet_apply`).

Main statement: `delete_relaxation_over_approximates`.
-/

namespace Pddl

namespace Formula

variable {s : State}

mutual

/-- A formula that holds also holds when negative literals count as true. -/
theorem relaxedHolds_of_holds : ∀ {f : Formula}, f.holds s = true → f.relaxedHolds s = true
  | .lit a p, h => by
      -- a positive literal asks the same in both readings, a negative one nothing relaxed
      cases p with
      | false => rfl
      | true =>
          simp only [holds, beq_iff_eq] at h
          simp only [relaxedHolds, h, Bool.not_true, Bool.false_or]
  | .and fs, h => by
      simp only [holds] at h
      exact relaxedHoldsAll_of_holdsAll h
  | .or fs, h => by
      simp only [holds] at h
      exact relaxedHoldsAny_of_holdsAny h

theorem relaxedHoldsAll_of_holdsAll :
    ∀ {fs : List Formula}, holdsAll s fs = true → relaxedHoldsAll s fs = true
  | [], _ => rfl
  | f :: fs, h => by
      simp only [holdsAll, Bool.and_eq_true] at h
      simp only [relaxedHoldsAll, Bool.and_eq_true]
      exact ⟨relaxedHolds_of_holds h.1, relaxedHoldsAll_of_holdsAll h.2⟩

theorem relaxedHoldsAny_of_holdsAny :
    ∀ {fs : List Formula}, holdsAny s fs = true → relaxedHoldsAny s fs = true
  | [], h => nomatch h
  | f :: fs, h => by
      simp only [holdsAny, Bool.or_eq_true] at h
      simp only [relaxedHoldsAny, Bool.or_eq_true]
      exact h.imp relaxedHolds_of_holds relaxedHoldsAny_of_holdsAny

end

end Formula

/-- A guard that holds also holds when its false atoms are ignored. -/
theorem Guard.relaxedHolds_of_holds {g : Guard} {s : State} (h : g.holds s = true) :
    g.relaxedHolds s = true := by
  unfold Guard.holds at h
  unfold Guard.relaxedHolds
  simp only [Bool.and_eq_true] at h ⊢
  obtain ⟨⟨hpos, -⟩, hf⟩ := h
  refine ⟨hpos, ?_⟩
  cases hform : g.formula with
  | none => rfl
  | some f =>
      rw [hform] at hf
      exact f.relaxedHolds_of_holds hf

/-- An atom true after an action was true before, or the action adds it when deletions are
ignored: a conditional effect that fires has a guard that holds, hence holds relaxed. -/
theorem Action.mem_relaxedAdds_of_isSet_apply (a : Action) {s : State} {i : AtomId}
    (h : (a.apply s).isSet i = true) : s.isSet i = true ∨ i ∈ a.relaxedAdds s := by
  rcases (a.isSet_apply s i).mp h with hadd | ⟨hset, -⟩
  · refine .inr ?_
    simp only [Action.relaxedAdds, List.mem_append, List.mem_flatMap, List.mem_filter]
    rcases hadd with hown | ⟨ce, hce, hholds, hi⟩
    · exact .inl hown
    · exact .inr ⟨ce, ⟨hce, ce.guard.relaxedHolds_of_holds hholds⟩, hi⟩
  · exact .inl hset

/-- The delete relaxation over-approximates execution, monotonically: for states `s ⊆ t`, what
holds in `s` holds relaxed there and relaxed truth carries over to `t`, for formulas and guards
alike; what an action adds relaxed in `s` it adds relaxed in `t`; and every atom true after
applying an action in `s` was true in `s` or is one of its relaxed additions there. -/
theorem delete_relaxation_over_approximates {s t : State} (hst : s.Sub t) :
    (∀ f : Formula, (f.holds s = true → f.relaxedHolds s = true) ∧
        (f.relaxedHolds s = true → f.relaxedHolds t = true)) ∧
      (∀ g : Guard, (g.holds s = true → g.relaxedHolds s = true) ∧
        (g.relaxedHolds s = true → g.relaxedHolds t = true)) ∧
      ∀ a : Action, a.relaxedAdds s ⊆ a.relaxedAdds t ∧
        (a.isApplicable s = true →
          ∀ i, (a.apply s).isSet i = true → s.isSet i = true ∨ i ∈ a.relaxedAdds s) :=
  ⟨fun _ => ⟨Formula.relaxedHolds_of_holds, Formula.relaxedHolds_mono hst⟩,
    fun _ => ⟨Guard.relaxedHolds_of_holds, Guard.relaxedHolds_mono hst⟩,
    fun a => ⟨a.relaxedAdds_mono hst, fun _ _ => a.mem_relaxedAdds_of_isSet_apply⟩⟩

/-- An action whose first conditional effect, guarded by atom 0, makes 2 true and 0 false, and
whose second, guarded by atom 2, makes 3 true. -/
def chainedEffects : Action where
  name := "act"
  args := []
  cost := 1
  pre := {}
  add := []
  del := []
  cond := [⟨{ positive := [0] }, [2], [0]⟩, ⟨{ positive := [2] }, [3], []⟩]

/-- From `{0}` the action makes `{2}` true; relaxed it adds `2` there and, in the larger state
`{0, 2}`, also `3`. -/
theorem chained_effects_relax :
    State.Sub ⟨#[true]⟩ ⟨#[true, false, true]⟩ ∧
      chainedEffects.relaxedAdds ⟨#[true]⟩ ⊆ chainedEffects.relaxedAdds ⟨#[true, false, true]⟩ ∧
      ∀ i, (chainedEffects.apply ⟨#[true]⟩).isSet i = true →
        State.isSet ⟨#[true]⟩ i = true ∨ i ∈ chainedEffects.relaxedAdds ⟨#[true]⟩ := by
  have hsub : State.Sub ⟨#[true]⟩ ⟨#[true, false, true]⟩ := by
    intro i h
    cases i with
    | zero => rfl
    | succ n => simp [State.isSet] at h
  obtain ⟨-, -, hact⟩ := delete_relaxation_over_approximates hsub
  exact ⟨hsub, (hact chainedEffects).1, (hact chainedEffects).2 rfl⟩

end Pddl
