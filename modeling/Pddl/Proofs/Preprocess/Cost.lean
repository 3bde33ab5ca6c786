import Pddl.Proofs.Preprocess.Closed
import Pddl.Proofs.Condition.Normal
/-!
# Compiling `total-cost` into operator costs

`Problem.extractCosts` counts the increases of `total-cost` in each effect with
`CostTally.addEffect`, which enters conjunctions only, and removes the changes of `total-cost`
from the effect with `withoutCostEffects`, which goes through every node. This module says what
the two walks do:

* the tally of an effect is the tally of its conjunction leaves, the nodes reached from the
  root through conjunctions (`CostTally.addEffect_eq_foldl`), so its cost is the saturating sum
  of the constant increases among them (`CostTally.cost_addEffect`), and without a violation
  every change of `total-cost` among them is such an increase
  (`CostTally.costIncrease_of_violations_eq_nil`);
* `withoutCostEffects` leaves no change of `total-cost` anywhere
  (`Condition.noCostEffect_withoutCostEffects`);
* `Problem.extractCosts_outcome` puts them together with what `operatorCosts` checks.

The walks disagree below a disjunction or a negation: an increase there is removed, neither
counted nor reported (`Problem.increase_in_disjunction_is_not_counted`).
-/

namespace Pddl

namespace Condition

mutual

/-- The nodes reached from the root through conjunctions only, in order, conjunctions
excepted. -/
def conjunctLeaves : Condition → List Condition
  | .and cs => conjunctLeavesAll cs
  | c => [c]

def conjunctLeavesAll : List Condition → List Condition
  | [] => []
  | c :: cs => conjunctLeaves c ++ conjunctLeavesAll cs

end

/-- The amount of a constant increase of `total-cost`. -/
def costIncrease? : Condition → Option Int
  | .numEffect e =>
      if e.target.fn = totalCostName ∧ e.kind = .increase then e.value.constValue? else none
  | _ => none

mutual

theorem conjunctLeaves_ne_and : ∀ (c : Condition), ∀ x ∈ c.conjunctLeaves, ∀ cs, x ≠ .and cs
  | .and cs, x, hx => conjunctLeavesAll_ne_and cs x hx
  | .or _, _, hx | .not _, _, hx | .quant .., _, hx | .when .., _, hx | .lit _, _, hx
  | .numEffect _, _, hx | .compare _, _, hx => by
      rw [List.mem_singleton.mp hx]
      exact fun _ => nofun

theorem conjunctLeavesAll_ne_and : ∀ (cs : List Condition), ∀ x ∈ conjunctLeavesAll cs, ∀ ds, x ≠ .and ds
  | [], _, hx => nomatch hx
  | c :: cs, x, hx => by
      rcases List.mem_append.mp hx with hx | hx
      · exact conjunctLeaves_ne_and c x hx
      · exact conjunctLeavesAll_ne_and cs x hx

end

end Condition

namespace CostTally

variable (op : String)

@[simp] theorem cost_flag (t : CostTally) (v : CostViolation) : (t.flag v).cost = t.cost := rfl

@[simp] theorem violations_flag (t : CostTally) (v : CostViolation) :
    (t.flag v).violations = t.violations ++ [v] := rfl

/-! ## The tally of an effect is the tally of its conjunction leaves -/

mutual

theorem addEffect_eq_foldl : ∀ (t : CostTally) (c : Condition),
    addEffect op t c = c.conjunctLeaves.foldl (addEffect op) t
  | t, .and cs => addEffects_eq_foldl t cs
  | _, .or _ => rfl
  | _, .not _ => rfl
  | _, .quant .. => rfl
  | _, .when .. => rfl
  | _, .lit _ => rfl
  | _, .numEffect _ => rfl
  | _, .compare _ => rfl

theorem addEffects_eq_foldl : ∀ (t : CostTally) (cs : List Condition),
    addEffects op t cs = (Condition.conjunctLeavesAll cs).foldl (addEffect op) t
  | _, [] => rfl
  | t, c :: cs => by
      rw [addEffects, addEffects_eq_foldl _ cs, addEffect_eq_foldl t c,
        Condition.conjunctLeavesAll, List.foldl_append]

end

variable {op}

/-- At a leaf, the cost grows by the amount of a constant increase of `total-cost`, and by
nothing otherwise. -/
theorem cost_addEffect_leaf (t : CostTally) {c : Condition} (hc : ∀ cs, c ≠ .and cs) :
    (addEffect op t c).cost = c.costIncrease?.elim t.cost (saturatingAdd t.cost) := by
  cases c with
  | numEffect e =>
      simp only [addEffect, Condition.costIncrease?]
      by_cases ht : e.target.fn = totalCostName
      · by_cases hk : e.kind = .increase
        · simp only [ht, hk, beq_self_eq_true, bne_self_eq_false, and_self, ↓reduceIte,
            Bool.false_eq_true]
          cases e.value.constValue? <;> rfl
        · simp [ht, hk]
      · simp only [beq_iff_eq, ht, ↓reduceIte, false_and]
        split <;> rfl
  | and cs => exact absurd rfl (hc cs)
  | when p c =>
      simp only [addEffect]
      split <;> rfl
  | quant q vs c =>
      simp only [addEffect]
      split <;> rfl
  | _ => rfl

theorem cost_foldl_addEffect : ∀ (t : CostTally) {leaves : List Condition},
    (∀ c ∈ leaves, ∀ cs, c ≠ .and cs) →
      (leaves.foldl (addEffect op) t).cost =
        (leaves.filterMap Condition.costIncrease?).foldl saturatingAdd t.cost
  | _, [], _ => rfl
  | t, c :: cs, h => by
      have hc := @cost_addEffect_leaf op t c (h c (.head _))
      rw [List.foldl_cons, cost_foldl_addEffect _ fun x hx => h x (.tail _ hx), hc,
        List.filterMap_cons]
      cases c.costIncrease? <;> rfl

/-- The cost of an effect is the saturating sum of the constant increases of `total-cost` among
its conjunction leaves. -/
theorem cost_addEffect (t : CostTally) (c : Condition) :
    (addEffect op t c).cost =
      (c.conjunctLeaves.filterMap Condition.costIncrease?).foldl saturatingAdd t.cost := by
  rw [addEffect_eq_foldl, cost_foldl_addEffect t (Condition.conjunctLeaves_ne_and c)]

/-! ## Violations -/

theorem violations_prefix_addEffect_leaf (t : CostTally) {c : Condition}
    (hc : ∀ cs, c ≠ .and cs) : t.violations <+: (addEffect op t c).violations := by
  cases c with
  | numEffect e =>
      simp only [addEffect]
      split
      · split
        · exact List.prefix_append _ _
        · split
          · exact List.prefix_refl _
          · exact List.prefix_append _ _
      · split
        · exact List.prefix_append _ _
        · exact List.prefix_refl _
  | and cs => exact absurd rfl (hc cs)
  | when p c =>
      simp only [addEffect]
      split
      · exact List.prefix_append _ _
      · exact List.prefix_refl _
  | quant q vs c =>
      simp only [addEffect]
      split
      · exact List.prefix_append _ _
      · exact List.prefix_refl _
  | _ => exact List.prefix_refl _

theorem violations_prefix_foldl : ∀ (t : CostTally) {leaves : List Condition},
    (∀ c ∈ leaves, ∀ cs, c ≠ .and cs) →
      t.violations <+: (leaves.foldl (addEffect op) t).violations
  | _, [], _ => List.prefix_refl _
  | t, c :: _, h =>
      (violations_prefix_addEffect_leaf t (h c (.head _))).trans
        (violations_prefix_foldl _ fun x hx => h x (.tail _ hx))

/-- A change of `total-cost` other than a constant increase is reported. -/
theorem violations_addEffect_ne_nil {t : CostTally} {c : Condition} (hcost : c.isCostEffect)
    (hinc : c.costIncrease? = none) : (addEffect op t c).violations ≠ [] := by
  cases c with
  | numEffect e =>
      have ht : e.target.fn = totalCostName := by simpa [Condition.isCostEffect] using hcost
      simp only [addEffect, ht, beq_self_eq_true, ↓reduceIte]
      by_cases hk : e.kind = .increase
      · have hv : e.value.constValue? = none := by
          simpa [Condition.costIncrease?, ht, hk] using hinc
        simp [hk, hv]
      · simp [hk]
  | _ => simp [Condition.isCostEffect] at hcost

theorem costIncrease_of_foldl_violations_eq_nil : ∀ (t : CostTally) {leaves : List Condition},
    (∀ c ∈ leaves, ∀ cs, c ≠ .and cs) → (leaves.foldl (addEffect op) t).violations = [] →
      ∀ c ∈ leaves, c.isCostEffect → c.costIncrease?.isSome
  | _, [], _, _ => nofun
  | t, c :: cs, h, hnil => by
      have hrest : ∀ x ∈ cs, ∀ ds, x ≠ .and ds := fun x hx => h x (.tail _ hx)
      -- the tally after the first leaf is a prefix of the final one, which is empty
      have hfirst : (addEffect op t c).violations = [] :=
        List.eq_nil_of_prefix_nil (hnil ▸ violations_prefix_foldl _ hrest)
      intro x hx hcost
      rcases List.mem_cons.mp hx with rfl | hx
      · cases hinc : x.costIncrease? with
        | none => exact absurd hfirst (violations_addEffect_ne_nil hcost hinc)
        | some _ => rfl
      · exact costIncrease_of_foldl_violations_eq_nil _ hrest hnil x hx hcost

/-- Without a violation, every change of `total-cost` among the conjunction leaves of an effect
is a constant increase. -/
theorem costIncrease_of_violations_eq_nil {t : CostTally} {c : Condition}
    (h : (addEffect op t c).violations = []) :
    ∀ x ∈ c.conjunctLeaves, x.isCostEffect → x.costIncrease?.isSome := by
  rw [addEffect_eq_foldl] at h
  exact costIncrease_of_foldl_violations_eq_nil t (Condition.conjunctLeaves_ne_and c) h

theorem violations_prefix_addEffect (op : String) (t : CostTally) (c : Condition) :
    t.violations <+: (addEffect op t c).violations := by
  rw [addEffect_eq_foldl]
  exact violations_prefix_foldl t (Condition.conjunctLeaves_ne_and c)

end CostTally

/-! ## What `operatorCosts` checks -/

/-- Costs are found exactly when no precondition, axiom condition or goal mentions
`total-cost` and no effect violates the pattern; they are the tallies of the effects. -/
theorem operatorCosts_eq_ok {pb : Problem} {costs : List Int} (h : operatorCosts pb = .ok costs) :
    costs = pb.operators.map (fun op =>
        (op.eff.conjunctLeaves.filterMap Condition.costIncrease?).foldl saturatingAdd 0) ∧
      (∀ op ∈ pb.operators, op.pre.references totalCostName = false ∧
        (CostTally.addEffect op.name {} op.eff).violations = []) ∧
      (∀ ax ∈ pb.axioms, ax.cond.references totalCostName = false) ∧
      (∀ g ∈ pb.goals, g.references totalCostName = false) := by
  unfold operatorCosts at h
  dsimp only at h
  rcases ite_eq_iff.mp h with ⟨hempty, h⟩ | ⟨-, h⟩
  · cases h
    simp only [List.isEmpty_iff, List.append_eq_nil_iff, List.flatMap_eq_nil_iff, List.mem_map,
      forall_exists_index, and_imp, forall_apply_eq_imp_iff₂, List.filterMap_eq_nil_iff] at hempty
    obtain ⟨⟨hops, haxs⟩, hgoals⟩ := hempty
    -- a precondition mentioning `total-cost` starts the tally with a violation
    have hop : ∀ op ∈ pb.operators, op.pre.references totalCostName = false ∧
        (CostTally.addEffect op.name {} op.eff).violations = [] := by
      intro op hmem
      have hnil := hops op hmem
      by_cases hpre : op.pre.references totalCostName = true
      · have hprefix := CostTally.violations_prefix_addEffect op.name
          { violations := [.inPrecondition op.name] } op.eff
        simp only [hpre, ↓reduceIte] at hnil
        rw [hnil] at hprefix
        exact absurd (List.eq_nil_of_prefix_nil hprefix) (List.cons_ne_nil _ _)
      · simp only [hpre, Bool.false_eq_true, ↓reduceIte] at hnil
        exact ⟨Bool.eq_false_iff.mpr hpre, hnil⟩
    refine ⟨?_, hop, fun ax hax => ?_, fun g hg => ?_⟩
    · simp only [List.map_map]
      refine List.map_congr_left fun op _ => ?_
      simp only [Function.comp_apply, CostTally.cost_addEffect]
      split <;> rfl
    · have hnone := haxs ax hax
      simp only [ite_eq_right_iff, reduceCtorEq, imp_false, Bool.not_eq_true] at hnone
      exact hnone
    · simp only [List.any_eq_true, ite_eq_right_iff, reduceCtorEq, imp_false, not_exists,
        not_and, Bool.not_eq_true] at hgoals
      exact hgoals g hg
  · cases h

theorem operatorCosts_eq_error {pb : Problem} {vs : List CostViolation}
    (h : operatorCosts pb = .error vs) : vs ≠ [] := by
  unfold operatorCosts at h
  dsimp only at h
  rcases ite_eq_iff.mp h with ⟨-, h⟩ | ⟨hempty, h⟩
  · cases h
  · cases h
    exact fun hnil => hempty (by rw [hnil]; rfl)

/-! ## Removing the changes of `total-cost` -/

namespace Condition

/-- The node transformation of `withoutCostEffects`: it removes the changes of `total-cost` and
keeps every other node. -/
def dropCostEffect (d : Condition) : Id (Option Condition) :=
  pure (if d.isCostEffect then none else some d)

theorem noCostEffect_getD {o : Option Condition}
    (h : ∀ c ∈ o, c.Everywhere fun n => n.isCostEffect = false) :
    (o.getD tautology).Everywhere fun n => n.isCostEffect = false := by
  cases o with
  | none => exact ⟨rfl, trivial⟩
  | some c => exact h c rfl

mutual

/-- Each node the traversal keeps is not a change of `total-cost`, and neither is the empty
conjunction it puts in place of a removed part. -/
theorem noCostEffect_transformBottomUp : ∀ (c : Condition),
    ∀ c' ∈ Id.run (c.transformBottomUp dropCostEffect),
      c'.Everywhere fun n => n.isCostEffect = false
  | .and cs, c', h => by
      obtain rfl : c' = .and (Id.run (transformBottomUpAll dropCostEffect cs)) := by
        simpa [transformBottomUp, dropCostEffect, isCostEffect] using h.symm
      exact ⟨rfl, everywhereAll_iff.mpr (noCostEffect_transformBottomUpAll cs)⟩
  | .or cs, c', h => by
      obtain rfl : c' = .or (Id.run (transformBottomUpAll dropCostEffect cs)) := by
        simpa [transformBottomUp, dropCostEffect, isCostEffect] using h.symm
      exact ⟨rfl, everywhereAll_iff.mpr (noCostEffect_transformBottomUpAll cs)⟩
  | .not c, c', h => by
      obtain rfl : c' = .not ((Id.run (c.transformBottomUp dropCostEffect)).getD tautology) := by
        simpa [transformBottomUp, dropCostEffect, isCostEffect] using h.symm
      exact ⟨rfl, noCostEffect_getD (noCostEffect_transformBottomUp c)⟩
  | .quant q vs c, c', h => by
      obtain rfl : c' = .quant q vs ((Id.run (c.transformBottomUp dropCostEffect)).getD tautology) := by
        simpa [transformBottomUp, dropCostEffect, isCostEffect] using h.symm
      exact ⟨rfl, noCostEffect_getD (noCostEffect_transformBottomUp c)⟩
  | .when p c, c', h => by
      obtain rfl : c' = .when ((Id.run (p.transformBottomUp dropCostEffect)).getD tautology)
          ((Id.run (c.transformBottomUp dropCostEffect)).getD tautology) := by
        simpa [transformBottomUp, dropCostEffect, isCostEffect] using h.symm
      exact ⟨rfl, noCostEffect_getD (noCostEffect_transformBottomUp p),
        noCostEffect_getD (noCostEffect_transformBottomUp c)⟩
  | .lit l, c', h => by
      obtain rfl : c' = .lit l := by
        simpa [transformBottomUp, dropCostEffect, isCostEffect] using h.symm
      rfl
  | .numEffect e, c', h => by
      simp only [transformBottomUp, dropCostEffect, Id.run] at h
      split at h
      · cases h
      · rename_i hcost
        cases h
        exact Bool.eq_false_iff.mpr hcost
  | .compare cmp, c', h => by
      obtain rfl : c' = .compare cmp := by
        simpa [transformBottomUp, dropCostEffect, isCostEffect] using h.symm
      rfl

theorem noCostEffect_transformBottomUpAll : ∀ (cs : List Condition),
    ∀ c' ∈ Id.run (transformBottomUpAll dropCostEffect cs),
      c'.Everywhere fun n => n.isCostEffect = false
  | [], _, h => nomatch h
  | c :: cs, c', h => by
      simp only [transformBottomUpAll, Id.run_bind] at h
      split at h
      · rename_i d hd
        rcases List.mem_cons.mp h with rfl | h
        · exact noCostEffect_transformBottomUp c _ hd
        · exact noCostEffect_transformBottomUpAll cs c' h
      · exact noCostEffect_transformBottomUpAll cs c' h

end

/-- No node of an effect without its changes of `total-cost` changes `total-cost`. -/
theorem noCostEffect_withoutCostEffects (c : Condition) :
    c.withoutCostEffects.Everywhere fun n => n.isCostEffect = false :=
  noCostEffect_getD (noCostEffect_transformBottomUp c)

end Condition

/-! ## The outcome -/

namespace Problem

theorem extractCosts_of_error {pb : Problem} {vs : List CostViolation}
    (hf : pb.findFunction? totalCostName ≠ none) (h : operatorCosts pb = .error vs) :
    pb.extractCosts = (pb, vs.map CostViolation.message ++ [keptAsFluentWarning]) := by
  unfold extractCosts
  split
  · rename_i hnone
    exact absurd hnone hf
  · rw [h]

theorem extractCosts_of_ok {pb : Problem} {costs : List Int}
    (hf : pb.findFunction? totalCostName ≠ none) (h : operatorCosts pb = .ok costs) :
    pb.extractCosts =
      ({ pb with
          operators := (pb.operators.zip costs).map fun (op, cost) =>
            { op with cost := cost, eff := op.eff.withoutCostEffects }
          functions := pb.functions.filter (·.name != totalCostName)
          initValues := pb.initValues.filter (·.1.fn != totalCostName) }, []) := by
  unfold extractCosts
  split
  · rename_i hnone
    exact absurd hnone hf
  · rw [h]

/-- What compiling `total-cost` gives. Without the function the problem is kept; with a
violation of the pattern too, with one warning per violation and a closing one. Otherwise no
precondition, axiom condition or goal mentions `total-cost`, and each operator keeps its name,
parameters and precondition, gets as cost the saturating sum of the constant increases of
`total-cost` among the conjunction leaves of its effect, where every change of `total-cost` is
such an increase, and loses every change of `total-cost` anywhere in its effect; the function and
its initial values leave the problem, whose other parts are kept. -/
theorem extractCosts_outcome (pb : Problem) :
    (pb.findFunction? totalCostName = none → pb.extractCosts = (pb, [])) ∧
      (∀ vs, pb.findFunction? totalCostName ≠ none → operatorCosts pb = .error vs →
        vs ≠ [] ∧ pb.extractCosts = (pb, vs.map CostViolation.message ++ [keptAsFluentWarning])) ∧
      ∀ costs, pb.findFunction? totalCostName ≠ none → operatorCosts pb = .ok costs →
        pb.extractCosts.2 = [] ∧
        List.Forall₂ (fun op op' : Operator => op'.name = op.name ∧ op'.params = op.params ∧
            op'.pre = op.pre ∧ op.pre.references totalCostName = false ∧
            op'.cost = (op.eff.conjunctLeaves.filterMap Condition.costIncrease?).foldl
              saturatingAdd 0 ∧
            (∀ x ∈ op.eff.conjunctLeaves, x.isCostEffect → x.costIncrease?.isSome) ∧
            op'.eff = op.eff.withoutCostEffects ∧
            op'.eff.Everywhere fun n => n.isCostEffect = false)
          pb.operators pb.extractCosts.1.operators ∧
        pb.extractCosts.1.functions = pb.functions.filter (·.name != totalCostName) ∧
        pb.extractCosts.1.initValues = pb.initValues.filter (·.1.fn != totalCostName) ∧
        pb.extractCosts.1.axioms = pb.axioms ∧ pb.extractCosts.1.goals = pb.goals ∧
        (∀ ax ∈ pb.axioms, ax.cond.references totalCostName = false) ∧
        (∀ g ∈ pb.goals, g.references totalCostName = false) ∧
        pb.extractCosts.1.types = pb.types ∧ pb.extractCosts.1.objects = pb.objects ∧
        pb.extractCosts.1.predicates = pb.predicates ∧ pb.extractCosts.1.init = pb.init := by
  refine ⟨fun hnone => ?_, fun vs hf h => ⟨operatorCosts_eq_error h, extractCosts_of_error hf h⟩,
    fun costs hf h => ?_⟩
  · unfold extractCosts
    rw [hnone]
  obtain ⟨hcosts, hops, haxs, hgoals⟩ := operatorCosts_eq_ok h
  rw [extractCosts_of_ok hf h, hcosts]
  -- each operator is paired with its own cost
  have hzip : ∀ g : Operator → Int,
      pb.operators.zip (pb.operators.map g) = pb.operators.map fun op => (op, g op) := by
    intro g
    have hz := @List.zip_map' _ _ _ id g pb.operators
    rwa [List.map_id] at hz
  refine ⟨rfl, ?_, rfl, rfl, rfl, rfl, haxs, hgoals, rfl, rfl, rfl, rfl⟩
  rw [hzip, List.map_map, List.forall₂_map_right_iff, List.forall₂_same]
  intro op hop
  obtain ⟨hpre, hnil⟩ := hops op hop
  refine ⟨rfl, rfl, rfl, hpre, rfl, ?_, rfl, Condition.noCostEffect_withoutCostEffects op.eff⟩
  exact CostTally.costIncrease_of_violations_eq_nil hnil

/-- Driving to `b`, which costs 3. -/
def drivingProblem : Problem :=
  { functions := [⟨totalCostName, []⟩]
    operators := [{ name := "drive", params := []
                    eff := .and [.lit ⟨"at-b", [], false⟩,
                      .numEffect ⟨⟨totalCostName, []⟩, .increase, .const 3⟩] }] }

/-- Driving follows the pattern, so its cost is compiled without a warning. -/
theorem driving_cost_compiles :
    drivingProblem.findFunction? totalCostName ≠ none ∧ operatorCosts drivingProblem = .ok [3] ∧
      drivingProblem.extractCosts.2 = [] :=
  have hf : drivingProblem.findFunction? totalCostName ≠ none := by decide
  have hok : operatorCosts drivingProblem = .ok [3] := rfl
  ⟨hf, hok, ((extractCosts_outcome drivingProblem).2.2 [3] hf hok).1⟩

/-- An operator whose only increase of `total-cost` stands in a disjunction. -/
def disjunctiveCostProblem : Problem :=
  { functions := [⟨totalCostName, []⟩]
    operators := [{ name := "o", params := []
                    eff := .or [.numEffect ⟨⟨totalCostName, []⟩, .increase, .const 5⟩] }] }

/-- The increase is removed from the effect without being counted, and nothing is reported. -/
theorem increase_in_disjunction_is_not_counted :
    disjunctiveCostProblem.extractCosts.2 = [] ∧
      disjunctiveCostProblem.extractCosts.1.operators.map (fun op => (op.cost, op.eff)) =
        [(0, .or [])] := by
  decide

end Problem

end Pddl
