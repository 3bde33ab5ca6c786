import Pddl.Proofs.Preprocess.Split
import Pddl.Proofs.Preprocess.Cost
import Pddl.Preprocess.Pipeline
/-!
# Preparing a prepared problem

Preparation leaves every condition without quantification, in negation normal form and, unless
disjunctions are kept, in disjunctive normal form with its disjunctive operators and
conditional effects split (`Problem.prepared_preprocess`). Each pass is the identity on such a
problem (`Problem.Prepared.normalize`, `Problem.Prepared.splitOperators`), so preparing it
again changes nothing, except for the compilation of `total-cost`.

That one step looks at the effects before they are normalized. An increase of `total-cost` in
a conditional effect `(when (and) …)` is a violation of the cost pattern, so the function is
kept; normalizing then drops the trivial condition, and a second preparation compiles the cost.
Preparing again is the identity exactly as far as its cost step is: when the prepared problem
has no `total-cost` function or still violates the pattern
(`preprocessing_twice_changes_nothing_unless_costs_compile`), which is the case whenever the
first preparation compiled the costs or found no function.
-/

namespace Pddl

namespace Condition

open Junction

/-! ## Prepared conditions -/

variable {pb : Problem}

/-- A condition as preparation leaves it: without quantification, in negation normal form, and
in disjunctive normal form when disjunctions are not kept. -/
structure Prepared (toDnf : Bool) (c : Condition) : Prop where
  quantFree : c.QuantFree
  nnf : c.Nnf
  dnf_eq : toDnf = true → c.dnf = c

mutual

/-- Elimination leaves a condition without quantification as it is. -/
theorem eliminateQuantifiers_of_quantFree :
    ∀ c : Condition, c.QuantFree → c.eliminateQuantifiers pb = c
  | .lit _, _ => rfl
  | .and cs, h => by rw [eliminateQuantifiers_and, map_eliminateQuantifiers_of_quantFree cs h.2]
  | .or cs, h => by rw [eliminateQuantifiers_or, map_eliminateQuantifiers_of_quantFree cs h.2]
  | .not c, h => by rw [eliminateQuantifiers_not, eliminateQuantifiers_of_quantFree c h.2]
  | .quant q vs c, h => absurd rfl (h.1 q vs c)
  | .when p c, h => by
      rw [eliminateQuantifiers_when, eliminateQuantifiers_of_quantFree p h.2.1,
        eliminateQuantifiers_of_quantFree c h.2.2]
  | .numEffect _, _ => rfl
  | .compare _, _ => rfl

theorem map_eliminateQuantifiers_of_quantFree : ∀ cs : List Condition,
    EverywhereAll (fun n => ∀ q vs b, n ≠ .quant q vs b) cs → cs.map (eliminateQuantifiers pb) = cs
  | [], _ => rfl
  | c :: cs, h => by
      rw [List.map_cons, eliminateQuantifiers_of_quantFree c h.1,
        map_eliminateQuantifiers_of_quantFree cs h.2]

end

/-- A condition that elimination and `simplify` take to a prepared one normalizes to it. -/
theorem Prepared.normalize_of_simplify {toDnf : Bool} {c d : Condition} (hd : d.Prepared toDnf)
    (h : (c.eliminateQuantifiers pb).simplify false = d) : c.normalize pb toDnf = d := by
  cases toDnf with
  | false => simp only [Condition.normalize, h, Bool.false_eq_true, if_false]
  | true =>
      simp only [Condition.normalize, h, if_true]
      exact hd.dnf_eq rfl

/-- Normalizing leaves a prepared condition as it is. -/
theorem Prepared.normalize_eq {toDnf : Bool} {c : Condition} (h : c.Prepared toDnf) :
    c.normalize pb toDnf = c :=
  h.normalize_of_simplify (by
    rw [eliminateQuantifiers_of_quantFree c h.quantFree, simplify_false_of_nnf c h.nnf])

/-- The conjunction of a single prepared goal normalizes to that goal. -/
theorem Prepared.normalize_and_singleton {toDnf : Bool} {g : Condition} (h : g.Prepared toDnf) :
    (Condition.and [g]).normalize pb toDnf = g := by
  apply h.normalize_of_simplify
  have hq : (Condition.and [g]).QuantFree := ⟨nofun, h.quantFree, trivial⟩
  rw [eliminateQuantifiers_of_quantFree _ hq]
  simp only [simplify, simplifyAll, simplify_false_of_nnf g h.nnf, Bool.false_eq_true, if_false]
  exact conj.normalize_singleton_of_nnf h.nnf

/-- Normalizing gives a prepared condition. -/
theorem prepared_normalize (toDnf : Bool) (c : Condition) :
    (c.normalize pb toDnf).Prepared toDnf := by
  have hq : ((c.eliminateQuantifiers pb).simplify false).QuantFree :=
    everywhere_simplify kindProperty_quantFree false (quantFree_eliminateQuantifiers c)
  have hn : ((c.eliminateQuantifiers pb).simplify false).Nnf := simplify_nnf false _
  cases toDnf with
  | false => exact ⟨hq, hn, nofun⟩
  | true =>
      exact ⟨everywhere_dnf kindProperty_quantFree _ hq, (nnf_dnf _ hn).1, fun _ => dnf_dnf _⟩

/-- The disjuncts of a prepared condition are prepared, and none is a disjunction. -/
theorem Prepared.of_mem_disjuncts {c d : Condition} (h : c.Prepared true) (hd : d ∈ c.disjuncts) :
    d.Prepared true ∧ ∀ ds, d ≠ .or ds := by
  have hq := Everywhere.of_mem_disjuncts h.quantFree hd
  have hn := Everywhere.of_mem_disjuncts h.nnf hd
  have hshape := dnf_shape c
  rw [h.dnf_eq rfl] at hshape
  rcases hshape with rfl | hdnf
  · -- true is its own only disjunct
    rw [show tautology.disjuncts = [tautology] from rfl, List.mem_singleton] at hd
    subst hd
    exact ⟨⟨hq, hn, fun _ => rfl⟩, nofun⟩
  · have hclause := hdnf.mem_disjuncts d hd
    exact ⟨⟨hq, hn, fun _ => dnf_of_clause hclause⟩, hclause.ne_or⟩

/-! ## Split effects -/

theorem splitConditional_of_not_or {p : Condition} (e : Condition) (h : ∀ ds, p ≠ .or ds) :
    splitConditional p e = [.when p e] := by
  unfold splitConditional
  split
  · exact absurd rfl (h _)
  · rfl

/-- A conjunct of an effect that preparation and splitting leave as it is: an atom of a
disjunctive normal form, in negation normal form, without quantification, and not a conditional
effect with a disjunctive prerequisite. -/
structure SplitAtom (c : Condition) : Prop where
  atom : c.DnfAtom fun a => a.dnf = a
  nnf : c.Nnf
  quantFree : c.QuantFree
  splitMember_eq : splitMember c = [c]

theorem SplitAtom.prepared {c : Condition} (h : c.SplitAtom) : c.Prepared true :=
  ⟨h.quantFree, h.nnf, fun _ => dnf_of_clause h.atom.clause⟩

theorem SplitAtom.splitEffect_eq {c : Condition} (h : c.SplitAtom) : splitEffect c = c := by
  cases c with
  | when p e =>
      have hsplit : splitConditional p e = [.when p e] := h.splitMember_eq
      simp only [splitEffect, hsplit]
  | and cs => exact h.atom.elim
  | _ => rfl

theorem flatMap_splitMember_of_splitAtoms {ms : List Condition} (h : ∀ x ∈ ms, x.SplitAtom) :
    ms.flatMap splitMember = ms :=
  (List.flatMap_congr fun x hx => (h x hx).splitMember_eq).trans (List.flatMap_singleton' ms)

/-- Splitting a conjunct in normal form leaves at least one part. -/
theorem splitMember_ne_nil {a : Condition} (hn : a.Nnf) : splitMember a ≠ [] := by
  cases a with
  | when p e =>
      cases p with
      | or ds =>
          -- the prerequisite is not false, so it has a disjunct
          have hds : ds ≠ [] := by
            rintro rfl
            exact hn.1.2.1 rfl
          simpa [splitMember, splitConditional] using hds
      | _ => simp [splitMember, splitConditional]
  | _ => simp [splitMember]

/-- The parts of a prepared conjunct are split atoms: a disjunctive prerequisite in disjunctive
normal form gives one conditional effect per clause. -/
theorem splitAtom_of_mem_splitMember {a x : Condition} (ha : a.DnfAtom fun a => a.dnf = a)
    (hn : a.Nnf) (hq : a.QuantFree) (hx : x ∈ splitMember a) : x.SplitAtom := by
  cases a with
  | when p e =>
      cases p with
      | or ds =>
          obtain ⟨d, hd, rfl⟩ := List.mem_map.mp hx
          have hfix : (Condition.or ds).dnf = .or ds ∧ e.dnf = e := Condition.when.inj ha
          have hshape := dnf_shape (.or ds)
          rw [hfix.1] at hshape
          have hclause : d.DnfClause fun a => a.dnf = a := by
            rcases hshape with htaut | hdnf
            · cases htaut
            · exact hdnf.2 d hd
          -- a member of a disjunction in normal form is neither a disjunction nor true
          obtain ⟨hdor, hdt⟩ := hn.2.1.1.2 d hd
          have hdnf : (Condition.when d e).dnf = .when d e := by
            show Condition.when d.dnf e.dnf = .when d e
            rw [dnf_of_clause hclause, hfix.2]
          have hnnf : (Condition.when d e).Nnf :=
            ⟨⟨hdt, hdor [], hn.1.2.2⟩, everywhereAll_iff.mp hn.2.1.2 d hd, hn.2.2⟩
          have hquant : (Condition.when d e).QuantFree :=
            ⟨nofun, everywhereAll_iff.mp hq.2.1.2 d hd, hq.2.2⟩
          exact ⟨hdnf, hnnf, hquant, splitConditional_of_not_or e hdor⟩
      | _ =>
          simp only [splitMember, splitConditional, List.mem_singleton] at hx
          subst hx
          exact ⟨ha, hn, hq, rfl⟩
  | and cs => exact ha.elim
  | or ds => exact ha.elim
  | _ =>
      simp only [splitMember, List.mem_singleton] at hx
      subst hx
      exact ⟨ha, hn, hq, rfl⟩

/-- Joining at least two lists that are not empty gives at least two elements. -/
theorem two_le_length_flatMap {α β : Type} {f : α → List β} :
    ∀ {cs : List α}, 2 ≤ cs.length → (∀ c ∈ cs, f c ≠ []) → 2 ≤ (cs.flatMap f).length
  | [], h, _ => absurd h (by simp)
  | [_], h, _ => absurd h (by simp)
  | a :: b :: rest, _, h => by
      have ha := List.length_pos_of_ne_nil (h a (by simp))
      have hb := List.length_pos_of_ne_nil (h b (by simp))
      simp only [List.flatMap_cons, List.length_append]
      omega

/-- Splitting a prepared effect leaves it as it is, makes it a split atom, or makes it the
conjunction of split atoms, not of exactly one. -/
theorem Prepared.splitEffect_cases {c : Condition} (h : c.Prepared true) :
    splitEffect c = c ∨ (splitEffect c).SplitAtom ∨
      ∃ ms, splitEffect c = .and ms ∧ ms.length ≠ 1 ∧ ∀ x ∈ ms, x.SplitAtom := by
  cases c with
  | and cs =>
      refine .inr (.inr ⟨cs.flatMap splitMember, splitEffect_and cs, ?_⟩)
      have hshape := dnf_shape (.and cs)
      rw [h.dnf_eq rfl] at hshape
      rcases hshape with hnil | ⟨hlen, hatoms⟩
      · obtain rfl : cs = [] := Condition.and.inj hnil
        exact ⟨by decide, by simp⟩
      · have hq := everywhereAll_iff.mp h.quantFree.2
        have hn := everywhereAll_iff.mp h.nnf.2
        refine ⟨?_, fun x hx => ?_⟩
        · have h2 : 2 ≤ (cs.flatMap splitMember).length :=
            two_le_length_flatMap hlen fun a ha => splitMember_ne_nil (hn a ha)
          omega
        · obtain ⟨a, ha, hx⟩ := List.mem_flatMap.mp hx
          exact splitAtom_of_mem_splitMember (hatoms a ha) (hn a ha) (hq a ha) hx
  | when p e =>
      have hatom : (Condition.when p e).DnfAtom fun a => a.dnf = a := h.dnf_eq rfl
      have hparts : ∀ x ∈ splitConditional p e, x.SplitAtom := fun x hx =>
        splitAtom_of_mem_splitMember hatom h.nnf h.quantFree hx
      simp only [splitEffect]
      split
      · rename_i x hx
        exact .inr (.inl (hparts x (by rw [hx]; exact .head _)))
      · rename_i hnot
        refine .inr (.inr ⟨_, rfl, fun hl => ?_, hparts⟩)
        obtain ⟨x, hx⟩ := List.length_eq_one_iff.mp hl
        exact hnot x hx
  | _ => exact .inl rfl

/-- A conjunction of split atoms, not of exactly one, is prepared, and splitting keeps it. -/
theorem prepared_and_of_splitAtoms {ms : List Condition} (hlen : ms.length ≠ 1)
    (hms : ∀ x ∈ ms, x.SplitAtom) :
    (Condition.and ms).Prepared true ∧ splitEffect (.and ms) = .and ms := by
  have hdnf : (Condition.and ms).dnf = .and ms := by
    rcases ms with _ | ⟨a, _ | ⟨b, rest⟩⟩
    · rfl
    · exact absurd rfl hlen
    · exact dnf_of_clause ⟨by simp, fun x hx => (hms x hx).atom⟩
  have hquant : (Condition.and ms).QuantFree :=
    ⟨nofun, everywhereAll_iff.mpr fun x hx => (hms x hx).quantFree⟩
  -- atoms are neither conjunctions nor false, so the conjunction keeps them
  have hnnf : (Condition.and ms).Nnf :=
    ⟨⟨hlen, fun x hx => keeps_conj.mp ((hms x hx).atom.keeps .conj)⟩,
      everywhereAll_iff.mpr fun x hx => (hms x hx).nnf⟩
  refine ⟨⟨hquant, hnnf, fun _ => hdnf⟩, ?_⟩
  rw [splitEffect_and, flatMap_splitMember_of_splitAtoms hms]

/-- Splitting a prepared effect gives a prepared effect that splitting keeps. -/
theorem Prepared.splitEffect_splitEffect {c : Condition} (h : c.Prepared true) :
    (splitEffect c).Prepared true ∧ splitEffect (splitEffect c) = splitEffect c := by
  rcases h.splitEffect_cases with heq | hatom | ⟨ms, heq, hlen, hms⟩
  · rw [heq]
    exact ⟨h, heq⟩
  · exact ⟨hatom.prepared, hatom.splitEffect_eq⟩
  · rw [heq]
    exact prepared_and_of_splitAtoms hlen hms

end Condition

/-! ## Split operators -/

namespace Operator

/-- The operators split from an operator with a prepared precondition and effect are prepared
and are their own split. -/
theorem prepared_of_mem_split {op o : Operator} (hpre : op.pre.Prepared true)
    (heff : op.eff.Prepared true) (ho : o ∈ op.split) :
    o.pre.Prepared true ∧ o.eff.Prepared true ∧ o.split = [o] := by
  obtain ⟨-, -, hoeff⟩ := mem_split ho
  have hmem : o.pre ∈ op.pre.disjuncts := by
    rw [← split_pre]
    exact List.mem_map_of_mem ho
  obtain ⟨hpre', hnotor⟩ := hpre.of_mem_disjuncts hmem
  obtain ⟨heff', hfix⟩ := heff.splitEffect_splitEffect
  refine ⟨hpre', hoeff ▸ heff', ?_⟩
  rw [split_of_not_or hnotor, hoeff, hfix, ← hoeff]

end Operator

/-! ## Prepared problems -/

namespace Problem

/-- A problem as preparation leaves it: every condition prepared, each operator its own split
when disjunctions are not kept, and a single goal. -/
structure Prepared (toDnf : Bool) (pb : Problem) : Prop where
  operators : ∀ op ∈ pb.operators, op.pre.Prepared toDnf ∧ op.eff.Prepared toDnf ∧
    (toDnf = true → op.split = [op])
  axioms : ∀ ax ∈ pb.axioms, ax.cond.Prepared toDnf
  goal : ∃ g, pb.goals = [g] ∧ g.Prepared toDnf

theorem preprocess_fst (pb : Problem) (cfg : Config) :
    (pb.preprocess cfg).1 =
      if !cfg.keepDisjunctions then
        { pb.extractCosts.1.normalize true with
          operators := splitOperators (pb.extractCosts.1.normalize true).operators }
      else pb.extractCosts.1.normalize false := by
  unfold Problem.preprocess
  cases cfg.keepDisjunctions <;> rfl

/-- Preparation gives a prepared problem. -/
theorem prepared_preprocess (pb : Problem) (cfg : Config) :
    (pb.preprocess cfg).1.Prepared (!cfg.keepDisjunctions) := by
  rw [preprocess_fst]
  generalize pb.extractCosts.1 = pb'
  cases cfg.keepDisjunctions with
  | false =>
      refine ⟨fun op' hop' => ?_, fun ax' hax' => ?_, ⟨_, rfl, Condition.prepared_normalize _ _⟩⟩
      · -- each split operator comes from a normalized one
        obtain ⟨op, hop, hop'⟩ := List.mem_flatMap.mp hop'
        obtain ⟨op₀, -, rfl⟩ := List.mem_map.mp hop
        obtain ⟨hpre, heff, hsplit⟩ := Operator.prepared_of_mem_split
          (Condition.prepared_normalize _ _) (Condition.prepared_normalize _ _) hop'
        exact ⟨hpre, heff, fun _ => hsplit⟩
      · obtain ⟨ax, -, rfl⟩ := List.mem_map.mp hax'
        exact Condition.prepared_normalize _ _
  | true =>
      refine ⟨fun op' hop' => ?_, fun ax' hax' => ?_, ⟨_, rfl, Condition.prepared_normalize _ _⟩⟩
      · obtain ⟨op, -, rfl⟩ := List.mem_map.mp hop'
        exact ⟨Condition.prepared_normalize _ _, Condition.prepared_normalize _ _, nofun⟩
      · obtain ⟨ax, -, rfl⟩ := List.mem_map.mp hax'
        exact Condition.prepared_normalize _ _

namespace Prepared

variable {toDnf : Bool} {pb : Problem}

/-- Normalizing leaves a prepared problem as it is. -/
theorem normalize (h : pb.Prepared toDnf) : pb.normalize toDnf = pb := by
  obtain ⟨g, hg, hgp⟩ := h.goal
  have hops : (pb.operators.map fun op =>
      { op with pre := op.pre.normalize pb toDnf, eff := op.eff.normalize pb toDnf }) =
      pb.operators := by
    refine (List.map_congr_left fun op hop => ?_).trans (List.map_id _)
    rw [(h.operators op hop).1.normalize_eq, (h.operators op hop).2.1.normalize_eq]
    rfl
  have haxs : (pb.axioms.map fun ax => { ax with cond := ax.cond.normalize pb toDnf }) =
      pb.axioms := by
    refine (List.map_congr_left fun ax hax => ?_).trans (List.map_id _)
    rw [(h.axioms ax hax).normalize_eq]
    rfl
  unfold Problem.normalize
  rw [hops, haxs, hg, hgp.normalize_and_singleton, ← hg]

/-- Splitting leaves the operators of a prepared problem as they are. -/
theorem splitOperators (h : pb.Prepared true) : splitOperators pb.operators = pb.operators :=
  (List.flatMap_congr fun op hop => (h.operators op hop).2.2 rfl).trans
    (List.flatMap_singleton' _)

/-- Preparing a prepared problem whose cost step keeps it gives it back. -/
theorem preprocess {cfg : Config} (h : pb.Prepared (!cfg.keepDisjunctions))
    (hcost : pb.extractCosts.1 = pb) : (pb.preprocess cfg).1 = pb := by
  rw [preprocess_fst, hcost]
  cases hk : cfg.keepDisjunctions with
  | false =>
      have hp : pb.Prepared true := by simpa [hk] using h
      simp only [Bool.not_false, if_true, hp.normalize, hp.splitOperators]
  | true =>
      have hp : pb.Prepared false := by simpa [hk] using h
      simp only [Bool.not_true, Bool.false_eq_true, if_false, hp.normalize]

end Prepared

/-- The cost step keeps a problem that has no `total-cost` function or breaks the cost
pattern. -/
theorem extractCosts_fst_of_kept {pb : Problem}
    (h : pb.findFunction? totalCostName = none ∨ ∃ vs, operatorCosts pb = .error vs) :
    pb.extractCosts.1 = pb := by
  by_cases hf : pb.findFunction? totalCostName = none
  · rw [(extractCosts_outcome pb).1 hf]
  · obtain ⟨vs, herr⟩ := h.resolve_left hf
    rw [extractCosts_of_error hf herr]

/-- After a preparation that found no `total-cost` function or compiled it, there is none. -/
theorem findFunction?_preprocess_eq_none {pb : Problem} (cfg : Config)
    (h : pb.findFunction? totalCostName = none ∨ ∃ costs, operatorCosts pb = .ok costs) :
    (pb.preprocess cfg).1.findFunction? totalCostName = none := by
  have hfun : (pb.preprocess cfg).1.functions = pb.extractCosts.1.functions := by
    rw [preprocess_fst]
    cases cfg.keepDisjunctions <;> rfl
  unfold findFunction? at h ⊢
  rw [hfun]
  by_cases hf : pb.findFunction? totalCostName = none
  · rw [(extractCosts_outcome pb).1 hf]
    exact hf
  · obtain ⟨costs, hok⟩ := h.resolve_left hf
    rw [extractCosts_of_ok hf hok]
    exact List.find?_eq_none.mpr fun f hf => by simpa using (List.mem_filter.mp hf).2

end Problem

open Problem in
/-- Preparing a prepared problem again changes it exactly when its cost step does: the problem
comes back unchanged if and only if it has no `total-cost` function or its effects still break
the cost pattern. That is the case when the first preparation found no `total-cost` function
or compiled it. -/
theorem preprocessing_twice_changes_nothing_unless_costs_compile (pb : Problem) (cfg : Config) :
    (((pb.preprocess cfg).1.preprocess cfg).1 = (pb.preprocess cfg).1 ↔
      (pb.preprocess cfg).1.findFunction? totalCostName = none ∨
        ∃ vs, operatorCosts (pb.preprocess cfg).1 = .error vs) ∧
    (pb.findFunction? totalCostName = none ∨ (∃ costs, operatorCosts pb = .ok costs) →
      (pb.preprocess cfg).1.findFunction? totalCostName = none) := by
  refine ⟨⟨fun heq => ?_, fun hcost =>
    (prepared_preprocess pb cfg).preprocess (extractCosts_fst_of_kept hcost)⟩,
    findFunction?_preprocess_eq_none cfg⟩
  -- compiled costs would remove the function, which the unchanged problem still has
  rcases hq : operatorCosts (pb.preprocess cfg).1 with vs | costs
  · exact .inr ⟨vs, rfl⟩
  · have hnone := findFunction?_preprocess_eq_none cfg (.inr ⟨costs, hq⟩)
    rw [heq] at hnone
    exact .inl hnone

/-- Driving prepared once has its cost compiled, and preparing it again changes nothing. -/
theorem driving_prepared_once :
    (Problem.drivingProblem.preprocess {}).1.findFunction? totalCostName = none ∧
      ((Problem.drivingProblem.preprocess {}).1.preprocess {}).1 =
        (Problem.drivingProblem.preprocess {}).1 := by
  have h := preprocessing_twice_changes_nothing_unless_costs_compile Problem.drivingProblem {}
  have hnone := h.2 (.inr ⟨[3], rfl⟩)
  exact ⟨hnone, h.1.mpr (.inl hnone)⟩

/-- An increase of `total-cost` under a condition that always holds. -/
def trivialConditionCost : Problem :=
  { functions := [⟨totalCostName, []⟩]
    operators := [{ name := "o", params := []
                    eff := .when (.and [])
                      (.numEffect ⟨⟨totalCostName, []⟩, .increase, .const 1⟩) }] }

/-- Prepared once, the cost stays a fluent, since the increase stands in a conditional effect;
prepared again, the normalized effect follows the pattern and the cost is compiled. -/
theorem cost_under_trivial_condition_compiles_second_time :
    (trivialConditionCost.preprocess {}).1.operators.map (fun op => (op.cost, op.eff)) =
        [(0, .numEffect ⟨⟨totalCostName, []⟩, .increase, .const 1⟩)] ∧
      (trivialConditionCost.preprocess {}).1.findFunction? totalCostName ≠ none ∧
      ((trivialConditionCost.preprocess {}).1.preprocess {}).1.operators.map
          (fun op => (op.cost, op.eff)) = [(1, .and [])] ∧
      ((trivialConditionCost.preprocess {}).1.preprocess {}).1.functions = [] := by
  decide

end Pddl
