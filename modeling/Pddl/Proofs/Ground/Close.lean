import Pddl.Proofs.Ground.Width
import Pddl.Solve
/-!
# Which atoms recomputing the derived atoms touches

`close` clears the heads of the problem's rules and derives them again, stratum after stratum. An
atom that heads no rule is left as it is: it is not cleared, and no rule sets it
(`isSet_close_of_not_head`). So an atom of a derived predicate that no kept rule derives keeps
the value it had, also when it is true in the initial state or made true by an effect.

Which rules a ground problem keeps depends on how it was built. The naive grounding keeps every
instance whose condition can hold, the reachable one only the instances its relaxed rounds reach;
preparing a problem may simplify a condition to one that cannot hold, and its instances are then
dropped. Two ground problems built from one lifted problem then clear different atoms, and they
disagree on the initial state and on whether the goal can be reached: the two problems at the end
of this module show it.
-/

namespace Pddl

namespace State

/-- Giving one atom a value leaves every other atom as it is. -/
theorem isSet_setTo_of_ne {s : State} {a x : Nat} (h : a ≠ x) (v : Bool) :
    (s.setTo a v).isSet x = s.isSet x := by
  unfold setTo isSet
  split
  · simp [Array.getD_eq_getD_getElem?, h]
  · split
    · simp only [Array.set!_eq_setIfInBounds, Array.getD_eq_getD_getElem?,
        Array.getElem?_setIfInBounds, h, if_false]
      rw [Array.getElem?_append]
      split
      · simp
      · -- beyond the old row the widened state holds `false`, as the old one did
        rw [Array.getElem?_replicate, Array.getElem?_eq_none (by omega)]
        split <;> rfl
    · rfl

theorem isSet_del_of_ne {s : State} {a x : Nat} (h : a ≠ x) : (s.del a).isSet x = s.isSet x :=
  isSet_setTo_of_ne h false

end State

variable {x : Nat}

/-- A round of rules none of which has head `x` leaves `x` as it is. -/
theorem isSet_fireRules_of_not_head {rules : List GroundAxiom} (hx : ∀ ax ∈ rules, ax.atom ≠ x)
    (s : State) : (fireRules s rules).1.isSet x = s.isSet x := by
  unfold fireRules
  suffices h : ∀ acc : State × Bool, (rules.foldl fireRule acc).1.isSet x = acc.1.isSet x from
    h (s, false)
  induction rules with
  | nil => intro acc; rfl
  | cons ax rules ih =>
      intro acc
      have hstep : (fireRule acc ax).1.isSet x = acc.1.isSet x := by
        unfold fireRule
        split
        · exact State.isSet_setTo_of_ne (hx ax (by simp)) true
        · rfl
      rw [List.foldl_cons, ih (fun b hb => hx b (List.mem_cons_of_mem ax hb)), hstep]

theorem isSet_saturate_of_not_head {rules : List GroundAxiom} (hx : ∀ ax ∈ rules, ax.atom ≠ x)
    (fuel : Nat) (s : State) : (saturate rules fuel s).isSet x = s.isSet x := by
  induction fuel generalizing s with
  | zero => rfl
  | succ fuel ih =>
      have hround := isSet_fireRules_of_not_head hx s
      simp only [saturate]
      split
      · rw [ih, hround]
      · exact hround

namespace GroundProblem

/-- Recomputing the derived atoms leaves an atom that heads none of the problem's rules as it
is, whatever its predicate. -/
theorem isSet_close_of_not_head (gp : GroundProblem) (hx : ∀ ax ∈ gp.axioms, ax.atom ≠ x)
    (s : State) : (gp.close s).isSet x = s.isSet x := by
  unfold close
  split
  · rfl
  · dsimp only
    -- clearing the heads does not touch `x`
    have hcleared : ∀ (rules : List GroundAxiom), (∀ ax ∈ rules, ax.atom ≠ x) → ∀ t : State,
        (rules.foldl (fun s ax => s.del ax.atom) t).isSet x = t.isSet x := by
      intro rules
      induction rules with
      | nil => intro _ t; rfl
      | cons ax rules ih =>
          intro hrules t
          rw [List.foldl_cons, ih (fun b hb => hrules b (List.mem_cons_of_mem ax hb)),
            State.isSet_del_of_ne (hrules ax (by simp))]
    -- nor does deriving them again, one stratum after the other
    suffices h : ∀ (strata : List (List GroundAxiom)),
        (∀ r ∈ strata, r ∈ sliceStrata gp.axioms gp.strata) → ∀ t : State,
          (strata.foldl (fun s rules => saturate rules (rules.length + 1) s) t).isSet x =
            t.isSet x from
      (h _ (fun r hr => hr) _).trans (hcleared gp.axioms hx s)
    intro strata
    induction strata with
    | nil => intro _ t; rfl
    | cons r strata ih =>
        intro hstrata t
        have hr : ∀ ax ∈ r, ax.atom ≠ x := fun ax hax =>
          hx ax (mem_of_mem_sliceStrata (hstrata r (by simp)) ax hax)
        rw [List.foldl_cons, ih (fun r' hr' => hstrata r' (List.mem_cons_of_mem r hr')),
          isSet_saturate_of_not_head hr]

end GroundProblem

/-- An atom `d` of a derived predicate, derived from `p`, which nothing makes true; `d` is true
in the initial state, and the goal asks for it. -/
def derivedInInit : Problem where
  predicates := [⟨"d", []⟩, ⟨"p", []⟩]
  axioms := [Axiom.make ⟨"d", []⟩ (.lit ⟨"p", [], false⟩)]
  init := [⟨"d", [], false⟩]
  goals := [.lit ⟨"d", [], false⟩]

/-- The naive grounding keeps the rule for `d` and clears `d`, which the reachable grounding,
having dropped the rule, keeps: their initial states differ, and only the second one is a goal. -/
theorem groundings_disagree_on_derived_init_atom :
    (derivedInInit.solve { grounding := .naive }).toOption.map
        (fun sol => (sol.ground.init.display sol.ground.atoms, sol.result)) =
      some ([], .unsolvable) ∧
    (derivedInInit.solve { grounding := .relaxedGraph }).toOption.map
        (fun sol => (sol.ground.init.display sol.ground.atoms, sol.result)) =
      some (["(d)"], .solved ⟨[]⟩) := by
  decide +kernel

/-- `d` is derived when two objects of the type `e`, which has none, have `q`; `d` is true in the
initial state, and the goal asks for it. -/
def emptyWitness : Problem where
  types := ({} : TypeHierarchy).addType "e" none
  predicates := [⟨"d", []⟩, ⟨"q", [⟨"x", "e"⟩]⟩]
  axioms := [Axiom.make ⟨"d", []⟩ (.and [
    .quant .any [⟨"x", "e"⟩] (.lit ⟨"q", [.var ⟨"x", "e"⟩], false⟩),
    .quant .any [⟨"y", "e"⟩] (.lit ⟨"q", [.var ⟨"y", "e"⟩], false⟩)])]
  init := [⟨"d", [], false⟩]
  goals := [.lit ⟨"d", [], false⟩]

/-- Prepared, the rule for `d` is simplified away and `d` stays true; grounded as it is, the rule
is kept and `d` is cleared. -/
theorem preparing_changes_derived_init_atom :
    ((emptyWitness.preprocess { grounding := .naive }).1.ground .naive).toOption.map
        (fun r => (r.1.init.display r.1.atoms, r.1.search { grounding := .naive })) =
      some (["(d)"], .solved ⟨[]⟩) ∧
    (emptyWitness.ground .naive).toOption.map
        (fun r => (r.1.init.display r.1.atoms, r.1.search { grounding := .naive })) =
      some ([], .unsolvable) := by
  decide +kernel

end Pddl
