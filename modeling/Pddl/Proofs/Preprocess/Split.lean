import Pddl.Proofs.Preprocess.Quantifier
import Pddl.Proofs.Ground.Instances
/-!
# Splitting disjunctive operators

`Operator.split` gives one operator per disjunct of a disjunctive precondition, and splits the
conditional effects whose prerequisite is a disjunction, at the top of the effect or in its
top-level conjunction. This module says what the split operators are and why they mean the
same as the operator:

* one operator per disjunct, in order and named `op$i$`, or the operator itself with its
  effect split (`Operator.split_pre`, `Operator.split_names`), each with the operator's
  parameters and cost;
* for a normalized precondition, each split precondition is the constant true or a conjunction
  of literals, comparisons, numeric effects and conditional effects, with no negation and no
  quantification anywhere (`Condition.disjuncts_of_normalize`): a disjunction can only remain inside
  a conditional effect, whose parts the disjunctive normal form converts in place;
* the bound precondition has the value of the disjunction of the split ones
  (`Operator.evaluate_bind_split`);
* splitting an effect keeps the atoms it makes true and false
  (`Condition.effectMakes_splitEffect`), wherever every prerequisite of the effect has a value,
  so the instances of the split operators lead to the same states (`Operator.apply_split`).
  A conditional effect `(when (or d₁ … dₖ) e)` becomes `(when d₁ e) … (when dₖ e)`: they
  fire together exactly when the disjunction holds, and an atom made true or false several
  times is made so once.

Evaluation has no value for comparisons: a disjunction with a comparison has no value while a
split operator's precondition may hold (`Operator.comparison_disjunct_has_no_value`).
-/

namespace Pddl

namespace Condition

variable {pb : Problem} {holds : String → List String → Bool}

/-! ## Nodes of the normal forms -/

/-- A node the disjunctive normal form keeps as an atom, when there is neither negation nor
quantification: a literal, a comparison, a numeric effect or a conditional effect. -/
def BasicAtom : Condition → Prop
  | .lit _ => True
  | .compare _ => True
  | .numEffect _ => True
  | .when .. => True
  | _ => False

/-- An atom of a disjunctive normal form without negation and quantification is a literal, a
comparison, a numeric effect or a conditional effect. -/
theorem DnfAtom.basic {A : Condition → Prop} {c : Condition} (h : c.DnfAtom A) (hn : c.NotFree)
    (hq : c.QuantFree) : c.DnfAtom BasicAtom := by
  cases c with
  | and => exact h.elim
  | or => exact h.elim
  | not d => exact (hn.1 d rfl).elim
  | quant q vs d => exact (hq.1 q vs d rfl).elim
  | _ => trivial

theorem DnfClause.basic {A : Condition → Prop} {d : Condition} (h : d.DnfClause A) (hn : d.NotFree)
    (hq : d.QuantFree) : d.DnfClause BasicAtom := by
  cases d with
  | and cs =>
      refine ⟨h.1, fun c hc => (h.2 c hc).basic ?_ ?_⟩
      · exact (everywhereAll_iff.mp hn.2) c hc
      · exact (everywhereAll_iff.mp hq.2) c hc
  | or ds => exact h.elim
  | _ => exact DnfAtom.basic (A := A) (by exact h) hn hq

/-- The disjuncts of a normalized condition in disjunctive normal form are the constant true or
clauses of literals, comparisons, numeric effects and conditional effects, with no negation and
no quantification anywhere. -/
theorem disjuncts_of_normalize (c : Condition) :
    ∀ d ∈ (c.normalize pb true).disjuncts,
      d.NotFree ∧ d.QuantFree ∧ (d = tautology ∨ d.DnfClause BasicAtom) := by
  intro d hd
  have hs : ((c.eliminateQuantifiers pb).simplify false).QuantFree :=
    everywhere_simplify kindProperty_quantFree false (quantFree_eliminateQuantifiers c)
  have hnot : (c.normalize pb true).NotFree :=
    notFree_dnf _ (Nnf.notFree (simplify_nnf false _))
  have hquant : (c.normalize pb true).QuantFree := everywhere_dnf kindProperty_quantFree _ hs
  have hdn : d.NotFree := hnot.of_mem_disjuncts hd
  have hdq : d.QuantFree := hquant.of_mem_disjuncts hd
  refine ⟨hdn, hdq, ?_⟩
  rcases dnf_shape ((c.eliminateQuantifiers pb).simplify false) with ht | hdnf
  · -- the constant true is its own only disjunct
    have ht' : c.normalize pb true = tautology := ht
    rw [ht'] at hd
    exact .inl (List.mem_singleton.mp hd)
  · exact .inr ((hdnf.mem_disjuncts d hd).basic hdn hdq)

end Condition

/-! ## The split operators -/

namespace Operator

theorem split_of_or {op : Operator} {ds : List Condition} (h : op.pre = .or ds) :
    op.split = ds.zipIdx.map fun (d, i) =>
      { op with name := op.name ++ "$" ++ toString (i + 1) ++ "$", pre := d,
                eff := splitEffect op.eff } := by
  unfold split
  rw [h]

theorem split_of_not_or {op : Operator} (h : ∀ ds, op.pre ≠ .or ds) :
    op.split = [{ op with eff := splitEffect op.eff }] := by
  unfold split
  split
  · rename_i ds hds
    exact absurd hds (h ds)
  · rfl

/-- One operator per disjunct of the precondition, in order. -/
theorem split_pre (op : Operator) : op.split.map Operator.pre = op.pre.disjuncts := by
  by_cases h : ∃ ds, op.pre = .or ds
  · obtain ⟨ds, hds⟩ := h
    rw [split_of_or hds, hds, Condition.disjuncts, List.map_map]
    exact List.zipIdx_map_fst 0 ds
  · rw [split_of_not_or (fun ds hds => h ⟨ds, hds⟩)]
    cases hp : op.pre with
    | or ds => exact absurd ⟨ds, hp⟩ h
    | _ => rfl

/-- With a disjunctive precondition, the `i`-th operator is named `op$i$`, counting from 1. -/
theorem split_names {op : Operator} {ds : List Condition} (h : op.pre = .or ds) :
    op.split.map Operator.name =
      (List.range ds.length).map fun i => op.name ++ "$" ++ toString (i + 1) ++ "$" := by
  rw [split_of_or h, List.map_map, List.range_eq_range', ← List.zipIdx_map_snd 0 ds, List.map_map]
  rfl

/-- Each split operator has the parameters and the cost of the operator, and its split effect. -/
theorem mem_split {op o : Operator} (h : o ∈ op.split) :
    o.params = op.params ∧ o.cost = op.cost ∧ o.eff = splitEffect op.eff := by
  by_cases hor : ∃ ds, op.pre = .or ds
  · obtain ⟨ds, hds⟩ := hor
    rw [split_of_or hds] at h
    obtain ⟨⟨d, i⟩, -, rfl⟩ := List.mem_map.mp h
    exact ⟨rfl, rfl, rfl⟩
  · rw [split_of_not_or (fun ds hds => hor ⟨ds, hds⟩), List.mem_singleton] at h
    subst h
    exact ⟨rfl, rfl, rfl⟩

end Operator

/-! ## Values of the split preconditions -/

namespace Condition

variable {pb : Problem} {holds : String → List String → Bool}

theorem substAll_eq_map (σ : Subst) (cs : List Condition) : substAll σ cs = cs.map (subst σ) := by
  induction cs with
  | nil => rfl
  | cons c cs ih => rw [substAll, ih, List.map_cons]

theorem evalIn_or_singleton (σ : Subst) (c : Condition) :
    evalIn pb holds σ (.or [c]) = evalIn pb holds σ c := by
  simp only [evalIn, evalAll, combine_unit_right]

/-- A condition has the value of the disjunction of its disjuncts, under every substitution. -/
theorem evalIn_or_disjuncts (σ ρ : Subst) (c : Condition) :
    evalIn pb holds σ (.or (c.disjuncts.map (subst ρ))) = evalIn pb holds σ (c.subst ρ) := by
  cases c with
  | or ds => simp only [disjuncts, subst, substAll_eq_map]
  | _ => exact evalIn_or_singleton σ _

/-- A disjunction with a value is true exactly when one of its members is true. -/
theorem true_iff_of_evalAll_disj {σ : Subst} {v : Bool} :
    ∀ {xs : List Condition}, evalAll pb holds σ false xs = some v →
      (v = true ↔ ∃ x ∈ xs, evalIn pb holds σ x = some true)
  | [], h => by
      simp only [evalAll, Option.some.injEq] at h
      simp [← h]
  | x :: xs, h => by
      obtain ⟨a, b, ha, hb, rfl⟩ := combine_eq_some_iff.mp h
      have ih := true_iff_of_evalAll_disj hb
      simp only [Bool.false_eq_true, ↓reduceIte, Bool.or_eq_true, List.mem_cons, exists_eq_or_imp,
        ha, Option.some.injEq]
      rw [ih]

end Condition

namespace Operator

variable {pb : Problem} {holds : String → List String → Bool}

/-- The bound precondition has the value of the disjunction of the split operators' bound
preconditions. -/
theorem evaluate_bind_split (op : Operator) (args : List Argument) :
    (op.pre.bind op.params args).evaluate pb holds =
      (Condition.or (op.split.map fun o => o.pre.bind o.params args)).evaluate pb holds := by
  have hmap : op.split.map (fun o => o.pre.bind o.params args) =
      op.pre.disjuncts.map (Condition.subst (Subst.ofLists op.params args)) := by
    rw [← split_pre, List.map_map]
    refine List.map_congr_left fun o ho => ?_
    rw [Function.comp_apply, (mem_split ho).1]
    rfl
  rw [hmap, Condition.evaluate, Condition.evaluate, Condition.evalIn_or_disjuncts]
  rfl

/-- Where the bound precondition has a value, it is true exactly when some split operator's
bound precondition evaluates to true. -/
theorem evaluate_bind_split_true {op : Operator} {args : List Argument} {v : Bool}
    (h : (op.pre.bind op.params args).evaluate pb holds = some v) :
    v = true ↔ ∃ o ∈ op.split, (o.pre.bind o.params args).evaluate pb holds = some true := by
  rw [evaluate_bind_split] at h
  rw [Condition.true_iff_of_evalAll_disj h]
  simp only [List.mem_map, exists_exists_and_eq_and]
  rfl

end Operator

/-! ## Conjunctions of effects and disjunctions of prerequisites -/

namespace EffectLit

variable {pb : Problem} {ps : List Condition} {l : Literal}

theorem not_or {ds : List Condition} : ¬ EffectLit pb (.or ds) ps l := nofun

theorem not_tautology : ¬ EffectLit pb Condition.tautology ps l := by
  rw [Condition.tautology, and_iff]
  simp

end EffectLit

namespace Junction

open Condition

variable {pb : Problem} {holds : String → List String → Bool} {ps : List Condition} {l : Literal}

/-- A conjunction is absorbed exactly when false is one of its elements. -/
theorem conj_flatten_eq_none_iff {es : List Condition} :
    conj.flatten es = none ↔ contradiction ∈ es := by
  induction es with
  | nil => simp [flatten]
  | cons e es ih =>
      cases e with
      | and nested => simp [flatten, members?, ih, contradiction]
      | or ds =>
          cases ds with
          | nil => simp [flatten, members?, absorbs, isContradiction, contradiction]
          | cons d ds => simp [flatten, members?, absorbs, isContradiction, contradiction, ih]
      | _ => simp [flatten, members?, absorbs, isContradiction, contradiction, ih]

/-- Flattening nested conjunctions keeps the literals of an effect. -/
theorem exists_effectLit_flatten : ∀ {es flat : List Condition}, conj.flatten es = some flat →
    ((∃ x ∈ flat, EffectLit pb x ps l) ↔ ∃ e ∈ es, EffectLit pb e ps l)
  | [], flat, h => by
      simp only [flatten, Option.some.injEq] at h
      subst h
      rfl
  | e :: es, flat, h => by
      simp only [flatten] at h
      split at h
      · -- a nested conjunction gives its members
        rename_i nested hn
        obtain ⟨rest, hr, rfl⟩ := Option.map_eq_some_iff.mp h
        have he : e = .and nested := eq_build_of_members? hn
        subst he
        constructor
        · rintro ⟨x, hx, hl⟩
          rcases List.mem_append.mp hx with hx | hx
          · exact ⟨_, .head _, .and hx hl⟩
          · obtain ⟨e', he', hl'⟩ := (exists_effectLit_flatten hr).mp ⟨x, hx, hl⟩
            exact ⟨e', .tail _ he', hl'⟩
        · rintro ⟨e', he', hl'⟩
          rcases List.mem_cons.mp he' with rfl | he'
          · obtain ⟨x, hx, hl⟩ := EffectLit.and_iff.mp hl'
            exact ⟨x, List.mem_append_left _ hx, hl⟩
          · obtain ⟨x, hx, hl⟩ := (exists_effectLit_flatten hr).mpr ⟨e', he', hl'⟩
            exact ⟨x, List.mem_append_right _ hx, hl⟩
      · split at h
        · cases h
        · obtain ⟨rest, hr, rfl⟩ := Option.map_eq_some_iff.mp h
          simp only [List.mem_cons, exists_eq_or_imp, exists_effectLit_flatten hr]

/-- The literals of a normalized conjunction of effects: those of its elements, unless false is
one of them. -/
theorem effectLit_conj_normalize {es : List Condition} :
    EffectLit pb (conj.normalize es) ps l ↔ contradiction ∉ es ∧ ∃ e ∈ es, EffectLit pb e ps l := by
  rcases normalize_spec conj es with ⟨hf, hn⟩ | ⟨e, hf, hn⟩ | ⟨flat, hf, -, hn⟩ <;> rw [hn]
  · simp [dual, build, EffectLit.not_or, conj_flatten_eq_none_iff.mp hf]
  · have hc : contradiction ∉ es := fun hmem => by
      rw [conj_flatten_eq_none_iff.mpr hmem] at hf
      cases hf
    rw [← exists_effectLit_flatten hf]
    simp [hc]
  · have hc : contradiction ∉ es := fun hmem => by
      rw [conj_flatten_eq_none_iff.mpr hmem] at hf
      cases hf
    rw [build, EffectLit.and_iff, exists_effectLit_flatten hf]
    simp [hc]

/-- A normalized set that flattens has the value of the set of its elements. -/
theorem evalIn_normalize_of_flatten (σ : Subst) {k : Junction} {es flat : List Condition}
    (h : k.flatten es = some flat) :
    evalIn pb holds σ (k.normalize es) = evalAll pb holds σ (k == .conj) es := by
  rw [← evalAll_flatten σ h]
  rcases normalize_spec k es with ⟨hf, -⟩ | ⟨e, hf, hn⟩ | ⟨flat', hf, -, hn⟩
  · rw [hf] at h
    cases h
  · rw [hn]
    rw [h] at hf
    cases hf
    simp only [evalAll, combine_unit_right]
  · rw [hn, evalIn_build]
    rw [h] at hf
    cases hf
    rfl

/-- A normalized disjunction is true only when one of its elements is. -/
theorem exists_true_of_disj_normalize (σ : Subst) {es : List Condition}
    (h : evalIn pb holds σ (disj.normalize es) = some true) :
    ∃ e ∈ es, evalIn pb holds σ e = some true := by
  cases hf : disj.flatten es with
  | none =>
      -- an element absorbs the disjunction: it is the constant true
      obtain ⟨e, he, habs⟩ := exists_absorbs_of_flatten_eq_none hf
      refine ⟨e, he, ?_⟩
      rw [isTautology_iff.mp habs]
      rfl
  | some flat =>
      rw [evalIn_normalize_of_flatten σ hf] at h
      exact (true_iff_of_evalAll_disj h).mp rfl

/-- A normalized disjunction that has a value is true when one of its elements is. -/
theorem disj_normalize_true_of_exists (σ : Subst) {es : List Condition}
    (hv : (evalIn pb holds σ (disj.normalize es)).isSome)
    (he : ∃ e ∈ es, evalIn pb holds σ e = some true) :
    evalIn pb holds σ (disj.normalize es) = some true := by
  cases hf : disj.flatten es with
  | none =>
      unfold normalize
      rw [hf]
      rfl
  | some flat =>
      obtain ⟨v, hval⟩ := Option.isSome_iff_exists.mp hv
      rw [hval]
      rw [evalIn_normalize_of_flatten σ hf] at hval
      rw [(true_iff_of_evalAll_disj hval).mpr he]

theorem flatten_eq_none_of_mem {k : Junction} : ∀ {es : List Condition} {e : Condition}, e ∈ es →
    k.members? e = none → k.absorbs e = true → k.flatten es = none
  | x :: es, e, hmem, hm, ha => by
      rcases List.mem_cons.mp hmem with rfl | hmem
      · simp [flatten, hm, ha]
      · have ih := flatten_eq_none_of_mem hmem hm ha
        simp only [flatten, ih, Option.map_none]
        split <;> simp

/-- A normalized disjunction of conditions in normal form is true exactly when true is one of
them: a nested disjunction in normal form does not hold true. -/
theorem disj_normalize_eq_tautology_iff {es : List Condition} (h : ∀ e ∈ es, e.Nnf) :
    disj.normalize es = tautology ↔ tautology ∈ es := by
  constructor
  · intro hn
    by_contra hnot
    -- true, which absorbs a disjunction, is none of the conditions
    refine normalize_ne_absorbing h (fun e he hte => ?_) hn
    subst hte
    exact hnot he
  · intro hmem
    have hf : disj.flatten es = none := flatten_eq_none_of_mem hmem rfl rfl
    unfold normalize
    rw [hf]
    rfl

end Junction

/-! ## What an effect makes true and false -/

/-- Applying the effect makes the atom of `l` false (`isDel` set) or true: `l` is a literal of
the effect of that sign whose enclosing prerequisites all evaluate to true. -/
def EffectMakes (pb : Problem) (holds : String → List String → Bool) (eff : Condition)
    (isDel : Bool) (l : Literal) : Prop :=
  ∃ ps, EffectLit pb eff ps l ∧ l.negated = isDel ∧ ∀ p ∈ ps, p.evaluate pb holds = some true

/-- Every prerequisite enclosing a literal of the effect has a value. -/
def EffectDefined (pb : Problem) (holds : String → List String → Bool) (eff : Condition) : Prop :=
  ∀ ps l, EffectLit pb eff ps l → ∀ p ∈ ps, (p.evaluate pb holds).isSome

/-- The atoms an effect makes true or false in a state, numbered by a table, are those of the
literals it makes true or false. -/
theorem effectTargets_iff {pb : Problem} {T : AtomTable} {s : State} {eff : Condition}
    {isDel : Bool} {i : AtomId} :
    EffectTargets pb T s eff isDel i ↔ ∃ l, EffectMakes pb (T.holdsIn s) eff isDel l ∧ T.Numbers l i :=
  ⟨fun ⟨ps, l, hl, hd, hps, hi⟩ => ⟨l, ⟨ps, hl, hd, hps⟩, hi⟩,
    fun ⟨l, ⟨ps, hl, hd, hps⟩, hi⟩ => ⟨ps, l, hl, hd, hps, hi⟩⟩

theorem EffectMakes.ne_contradiction {pb : Problem} {holds : String → List String → Bool}
    {c : Condition} {isDel : Bool} {l : Literal} (h : EffectMakes pb holds c isDel l) :
    c ≠ Condition.contradiction := by
  rintro rfl
  obtain ⟨ps, hl, -⟩ := h
  exact EffectLit.not_or hl

namespace Condition

variable {pb : Problem} {holds : String → List String → Bool} {ps : List Condition} {l : Literal}
  {isDel : Bool}

theorem simplify_when_eq (p e : Condition) :
    (Condition.when p e).simplify false =
      if p.simplify false = contradiction ∨ e.simplify false = tautology then tautology
      else if p.simplify false = tautology then e.simplify false
      else .when (p.simplify false) (e.simplify false) := by
  simp only [simplify, Bool.or_eq_true, isContradiction_iff, isTautology_iff]

/-- The literals of a simplified conditional effect: those of its simplified body, under the
simplified prerequisite unless that is constant. -/
theorem effectLit_simplify_when (p e : Condition) :
    EffectLit pb ((Condition.when p e).simplify false) ps l ↔
      (p.simplify false = tautology ∧ EffectLit pb (e.simplify false) ps l) ∨
        (p.simplify false ≠ tautology ∧ p.simplify false ≠ contradiction ∧
          ∃ ps', ps = p.simplify false :: ps' ∧ EffectLit pb (e.simplify false) ps' l) := by
  have hne : contradiction ≠ tautology := nofun
  rw [simplify_when_eq]
  by_cases hp : p.simplify false = contradiction
  · rw [if_pos (Or.inl hp), hp]
    simp [EffectLit.not_tautology, hne]
  by_cases he : e.simplify false = tautology
  · rw [if_pos (Or.inr he), he]
    simp [EffectLit.not_tautology]
  by_cases ht : p.simplify false = tautology
  · simp [ht, he, hne.symm]
  · simp only [hp, he, or_self, ↓reduceIte, ht, EffectLit.when_iff, false_and, ne_eq,
      not_false_eq_true, true_and, false_or]

/-- The literals of a simplified conjunction of effects: those of its simplified members,
unless one of them simplifies to false. -/
theorem effectLit_simplify_and (cs : List Condition) :
    EffectLit pb ((Condition.and cs).simplify false) ps l ↔
      contradiction ∉ cs.map (simplify false) ∧ ∃ c ∈ cs, EffectLit pb (c.simplify false) ps l := by
  simp only [simplify, Bool.false_eq_true, ↓reduceIte, simplifyAll_eq_map,
    Junction.effectLit_conj_normalize, List.mem_map, exists_exists_and_eq_and]

theorem simplify_when_eq_contradiction_iff (p e : Condition) :
    (Condition.when p e).simplify false = contradiction ↔
      p.simplify false = tautology ∧ e.simplify false = contradiction := by
  have hne : contradiction ≠ tautology := nofun
  rw [simplify_when_eq]
  split_ifs with hconst hp
  · refine ⟨fun h => absurd h hne.symm, ?_⟩
    rintro ⟨hp, he⟩
    rcases hconst with hc | ht
    · exact (hne (hc.symm.trans hp)).elim
    · exact (hne (he.symm.trans ht)).elim
  · simp [hp]
  · exact ⟨nofun, fun h => absurd h.1 hp⟩

/-- A simplified conditional effect makes what its simplified body makes, when its simplified
prerequisite is true. -/
theorem effectMakes_simplify_when (p e : Condition) :
    EffectMakes pb holds ((Condition.when p e).simplify false) isDel l ↔
      (p.simplify false).evaluate pb holds = some true ∧
        EffectMakes pb holds (e.simplify false) isDel l := by
  have hne : contradiction ≠ tautology := nofun
  simp only [EffectMakes, effectLit_simplify_when]
  by_cases ht : p.simplify false = tautology
  · rw [ht]
    simp [evaluate]
  by_cases hc : p.simplify false = contradiction
  · rw [hc]
    simp [hne, evaluate]
  constructor
  · rintro ⟨ps, (⟨h, -⟩ | ⟨-, -, ps', rfl, hl⟩), hd, hps⟩
    · exact absurd h ht
    · exact ⟨hps _ (.head _), ps', hl, hd, fun q hq => hps q (.tail _ hq)⟩
  · rintro ⟨hp, ps', hl, hd, hps⟩
    exact ⟨_ :: ps', .inr ⟨ht, hc, ps', rfl, hl⟩, hd, List.forall_mem_cons.mpr ⟨hp, hps⟩⟩

theorem effectMakes_simplify_and (cs : List Condition) :
    EffectMakes pb holds ((Condition.and cs).simplify false) isDel l ↔
      contradiction ∉ cs.map (simplify false) ∧
        ∃ c ∈ cs, EffectMakes pb holds (c.simplify false) isDel l := by
  simp only [EffectMakes, effectLit_simplify_and]
  constructor
  · rintro ⟨ps, ⟨hc, c, hmem, hl⟩, hd, hps⟩
    exact ⟨hc, c, hmem, ps, hl, hd, hps⟩
  · rintro ⟨hc, c, hmem, ps, hl, hd, hps⟩
    exact ⟨ps, ⟨hc, c, hmem, hl⟩, hd, hps⟩

theorem simplify_or_false (ds : List Condition) :
    (Condition.or ds).simplify false = Junction.disj.normalize (ds.map (simplify false)) := by
  simp only [simplify, Bool.false_eq_true, ↓reduceIte, simplifyAll_eq_map]

/-- A disjunction simplifies to true exactly when one of its disjuncts does. -/
theorem simplify_or_eq_tautology_iff (ds : List Condition) :
    (Condition.or ds).simplify false = tautology ↔ ∃ d ∈ ds, d.simplify false = tautology := by
  have hnnf : ∀ e ∈ ds.map (simplify false), e.Nnf := by
    simp only [List.mem_map]
    rintro _ ⟨d, -, rfl⟩
    exact simplify_nnf false d
  rw [simplify_or_false, Junction.disj_normalize_eq_tautology_iff hnnf, List.mem_map]

/-- A conjunction of one effect makes what the effect makes. -/
theorem effectMakes_simplify_singleton (c : Condition) :
    EffectMakes pb holds ((Condition.and [c]).simplify false) isDel l ↔
      EffectMakes pb holds (c.simplify false) isDel l := by
  rw [effectMakes_simplify_and]
  simp only [List.map_cons, List.map_nil, List.mem_singleton, exists_eq_left]
  exact ⟨fun h => h.2, fun h => ⟨fun heq => EffectMakes.ne_contradiction h heq.symm, h⟩⟩

end Condition

namespace EffectDefined

variable {pb : Problem} {holds : String → List String → Bool}

theorem of_simplify_and {cs : List Condition}
    (h : EffectDefined pb holds ((Condition.and cs).simplify false))
    (hc : Condition.contradiction ∉ cs.map (Condition.simplify false)) {c : Condition} (hmem : c ∈ cs) :
    EffectDefined pb holds (c.simplify false) :=
  fun ps l hl => h ps l ((Condition.effectLit_simplify_and cs).mpr ⟨hc, c, hmem, hl⟩)

/-- The prerequisite of a conditional effect with a literal has a value. -/
theorem isSome_when {p e : Condition}
    (h : EffectDefined pb holds ((Condition.when p e).simplify false)) {ps : List Condition}
    {l : Literal} (hl : EffectLit pb (e.simplify false) ps l) :
    ((p.simplify false).evaluate pb holds).isSome := by
  by_cases ht : p.simplify false = Condition.tautology
  · rw [ht]
    rfl
  by_cases hc : p.simplify false = Condition.contradiction
  · rw [hc]
    rfl
  exact h _ l ((Condition.effectLit_simplify_when p e).mpr (.inr ⟨ht, hc, ps, rfl, hl⟩)) _ (.head _)

end EffectDefined

/-! ## Splitting conditional effects -/

/-- The conditional effects a member of an effect's top-level conjunction is split into. -/
def splitMember : Condition → List Condition
  | .when p e => splitConditional p e
  | c => [c]

theorem splitEffect_and (cs : List Condition) :
    splitEffect (.and cs) = .and (cs.flatMap splitMember) := rfl

namespace Condition

variable {pb : Problem} {holds : String → List String → Bool} {l : Literal} {isDel : Bool}

/-- A split member simplifies to false exactly when the member does. -/
theorem contradiction_mem_splitMember_iff (c : Condition) :
    contradiction ∈ (splitMember c).map (simplify false) ↔ c.simplify false = contradiction := by
  cases c with
  | when p e =>
      cases p with
      | or ds =>
          simp only [splitMember, splitConditional, List.map_map, List.mem_map, Function.comp_def,
            simplify_when_eq_contradiction_iff, simplify_or_eq_tautology_iff]
          constructor
          · rintro ⟨d, hd, ht, he⟩
            exact ⟨⟨d, hd, ht⟩, he⟩
          · rintro ⟨⟨d, hd, ht⟩, he⟩
            exact ⟨d, hd, ht, he⟩
      | _ => simp [splitMember, splitConditional, eq_comm]
  | _ => simp [splitMember, eq_comm]

/-- The parts a member of an effect is split into make together what the member makes, where
its prerequisites have values. -/
theorem effectMakes_splitMember (c : Condition) (hdef : EffectDefined pb holds (c.simplify false)) :
    (∃ x ∈ splitMember c, EffectMakes pb holds (x.simplify false) isDel l) ↔
      EffectMakes pb holds (c.simplify false) isDel l := by
  cases c with
  | when p e =>
      cases p with
      | or ds =>
          -- one disjunct is true exactly when the simplified disjunction is, as it has a value
          simp only [splitMember, splitConditional, List.mem_map, exists_exists_and_eq_and,
            effectMakes_simplify_when]
          constructor
          · rintro ⟨d, hd, htrue, hm⟩
            obtain ⟨ps, hl, hmade⟩ := hm
            have hv := hdef.isSome_when hl
            rw [simplify_or_false] at hv ⊢
            exact ⟨Junction.disj_normalize_true_of_exists [] hv ⟨_, List.mem_map_of_mem hd, htrue⟩,
              ps, hl, hmade⟩
          · rintro ⟨htrue, hm⟩
            rw [simplify_or_false] at htrue
            obtain ⟨d', hd', htrue'⟩ := Junction.exists_true_of_disj_normalize [] htrue
            obtain ⟨d, hd, rfl⟩ := List.mem_map.mp hd'
            exact ⟨d, hd, htrue', hm⟩
      | _ => simp [splitMember, splitConditional]
  | _ => simp [splitMember]

/-- A split conditional effect makes what the conjunction of its parts makes. -/
theorem effectMakes_splitEffect_when (p e : Condition) :
    EffectMakes pb holds ((splitEffect (.when p e)).simplify false) isDel l ↔
      EffectMakes pb holds ((Condition.and (splitMember (.when p e))).simplify false) isDel l := by
  simp only [splitEffect, splitMember]
  split
  · rename_i c hc
    rw [hc, effectMakes_simplify_singleton]
  · rfl

/-- Splitting the conditional effects of an effect keeps what it makes true and false, where its
prerequisites have values. -/
theorem effectMakes_splitEffect (c : Condition) (hdef : EffectDefined pb holds (c.simplify false)) :
    EffectMakes pb holds ((splitEffect c).simplify false) isDel l ↔
      EffectMakes pb holds (c.simplify false) isDel l := by
  cases c with
  | when p e =>
      rw [effectMakes_splitEffect_when, effectMakes_simplify_and, effectMakes_splitMember _ hdef,
        contradiction_mem_splitMember_iff]
      exact ⟨fun h => h.2, fun h => ⟨EffectMakes.ne_contradiction h, h⟩⟩
  | and cs =>
      -- false is among the split members exactly when it is among the members
      have hcontra : contradiction ∈ (cs.flatMap splitMember).map (simplify false) ↔
          contradiction ∈ cs.map (simplify false) := by
        simp only [List.mem_map, List.mem_flatMap]
        constructor
        · rintro ⟨x, ⟨c, hc, hx⟩, hxc⟩
          exact ⟨c, hc, (contradiction_mem_splitMember_iff c).mp (List.mem_map.mpr ⟨x, hx, hxc⟩)⟩
        · rintro ⟨c, hc, hcc⟩
          obtain ⟨x, hx, hxc⟩ := List.mem_map.mp ((contradiction_mem_splitMember_iff c).mpr hcc)
          exact ⟨x, ⟨c, hc, hx⟩, hxc⟩
      rw [splitEffect_and, effectMakes_simplify_and, effectMakes_simplify_and, hcontra]
      by_cases hc : contradiction ∈ cs.map (simplify false)
      · simp [hc]
      refine and_congr_right fun _ => ?_
      simp only [List.mem_flatMap]
      constructor
      · rintro ⟨x, ⟨c, hmem, hx⟩, hm⟩
        exact ⟨c, hmem, (effectMakes_splitMember c (hdef.of_simplify_and hc hmem)).mp ⟨x, hx, hm⟩⟩
      · rintro ⟨c, hmem, hm⟩
        obtain ⟨x, hx, hm'⟩ := (effectMakes_splitMember c (hdef.of_simplify_and hc hmem)).mpr hm
        exact ⟨x, ⟨c, hmem, hx⟩, hm'⟩
  | _ => exact Iff.rfl

/-! ## Splitting commutes with substitution -/

theorem splitConditional_subst (σ : Subst) (p e : Condition) :
    (splitConditional p e).map (subst σ) = splitConditional (p.subst σ) (e.subst σ) := by
  cases p with
  | or ds => simp [splitConditional, subst, substAll_eq_map]
  | _ => rfl

theorem splitMember_subst (σ : Subst) (c : Condition) :
    (splitMember c).map (subst σ) = splitMember (c.subst σ) := by
  cases c with
  | when p e => exact splitConditional_subst σ p e
  | _ => rfl

theorem subst_splitEffect (σ : Subst) (c : Condition) :
    (splitEffect c).subst σ = splitEffect (c.subst σ) := by
  cases c with
  | when p e =>
      show _ = splitEffect (.when (p.subst σ) (e.subst σ))
      simp only [splitEffect]
      rw [← splitConditional_subst]
      rcases splitConditional p e with _ | ⟨c, _ | ⟨c', rest⟩⟩
      · rfl
      · rfl
      · simp [subst, substAll_eq_map]
  | and cs =>
      simp only [splitEffect_and, subst, substAll_eq_map, List.map_flatMap, List.flatMap_map,
        splitMember_subst]
  | _ => rfl

theorem bind_splitEffect (vs : List Param) (args : List Argument) (c : Condition) :
    (splitEffect c).bind vs args = splitEffect (c.bind vs args) :=
  subst_splitEffect _ c

end Condition

/-! ## The split operators' effects -/

namespace Operator

variable {pb : Problem}

/-- Each split operator makes the same literals true and false as the operator, for every
binding of the parameters, where the prerequisites of the operator's effect have values. -/
theorem effectMakes_split {op o : Operator} (ho : o ∈ op.split) (args : List Argument)
    {holds : String → List String → Bool} {isDel : Bool} {l : Literal}
    (hdef : EffectDefined pb holds ((op.eff.bind op.params args).simplify false)) :
    EffectMakes pb holds ((o.eff.bind o.params args).simplify false) isDel l ↔
      EffectMakes pb holds ((op.eff.bind op.params args).simplify false) isDel l := by
  obtain ⟨hparams, -, heff⟩ := mem_split ho
  rw [hparams, heff, Condition.bind_splitEffect]
  exact Condition.effectMakes_splitEffect _ hdef

theorem effectTargets_split {op o : Operator} (ho : o ∈ op.split) (args : List Argument)
    {T : AtomTable} {s : State} {isDel : Bool} {i : AtomId}
    (hdef : EffectDefined pb (T.holdsIn s) ((op.eff.bind op.params args).simplify false)) :
    EffectTargets pb T s ((o.eff.bind o.params args).simplify false) isDel i ↔
      EffectTargets pb T s ((op.eff.bind op.params args).simplify false) isDel i := by
  simp only [effectTargets_iff, effectMakes_split ho args hdef]

/-- An instance of a split operator leads to the same state as the instance of the operator
with the same arguments, where the prerequisites of both effects have values. -/
theorem apply_split {op o : Operator} (ho : o ∈ op.split) {args : List Argument}
    {T : AtomTable} {a a' : Action} (hsplit : ActionMeans pb o args (some a) T)
    (hop : ActionMeans pb op args (some a') T) (s : State)
    (hdefSplit : EffectDefined pb (T.holdsIn s) ((o.eff.bind o.params args).simplify false))
    (hdef : EffectDefined pb (T.holdsIn s) ((op.eff.bind op.params args).simplify false))
    (i : AtomId) : (a.apply s).isSet i = (a'.apply s).isSet i := by
  rw [Bool.eq_iff_iff, (hsplit s).2 hdefSplit i, (hop s).2 hdef i, effectTargets_split ho args hdef,
    effectTargets_split ho args hdef]

/-- Splitting a normalized operator gives one operator per disjunct of its precondition, in
order and numbered, or the operator itself with its effect split. Each keeps the parameters and
the cost, and has a clause of literals, comparisons, numeric and conditional effects as its
precondition, with no negation or quantification. Where the bound precondition has a value, it
is true exactly when the bound precondition of a split operator is; and the instances of the
split operators lead to the same states as the operator's, where the prerequisites of the
effects have values. -/
theorem split_preserves_meaning (pb : Problem) (op : Operator) (c : Condition)
    (hpre : op.pre = c.normalize pb true) :
    op.split.map Operator.pre = op.pre.disjuncts ∧
      (∀ ds, op.pre = .or ds → op.split.map Operator.name =
        (List.range ds.length).map fun i => op.name ++ "$" ++ toString (i + 1) ++ "$") ∧
      ((∀ ds, op.pre ≠ .or ds) → op.split = [{ op with eff := splitEffect op.eff }]) ∧
      (∀ o ∈ op.split, o.params = op.params ∧ o.cost = op.cost ∧ o.pre.NotFree ∧
        o.pre.QuantFree ∧ (o.pre = Condition.tautology ∨ o.pre.DnfClause Condition.BasicAtom)) ∧
      (∀ args holds v, (op.pre.bind op.params args).evaluate pb holds = some v →
        (v = true ↔ ∃ o ∈ op.split, (o.pre.bind o.params args).evaluate pb holds = some true)) ∧
      ∀ o ∈ op.split, ∀ args T a a', ActionMeans pb o args (some a) T →
        ActionMeans pb op args (some a') T → ∀ s,
          EffectDefined pb (T.holdsIn s) ((o.eff.bind o.params args).simplify false) →
          EffectDefined pb (T.holdsIn s) ((op.eff.bind op.params args).simplify false) →
            ∀ i, (a.apply s).isSet i = (a'.apply s).isSet i := by
  refine ⟨split_pre op, fun _ h => split_names h, split_of_not_or, fun o ho => ?_,
    fun _ _ _ h => evaluate_bind_split_true h,
    fun o ho _ _ _ _ hsplit hop s hdefSplit hdef => apply_split ho hsplit hop s hdefSplit hdef⟩
  -- the split preconditions are the disjuncts of the normalized precondition
  obtain ⟨hparams, hcost, -⟩ := mem_split ho
  have hmem : o.pre ∈ op.pre.disjuncts := split_pre op ▸ List.mem_map_of_mem ho
  rw [hpre] at hmem
  exact ⟨hparams, hcost, Condition.disjuncts_of_normalize c o.pre hmem⟩

/-- Leaving through either door. -/
def leaveOperator : Operator :=
  { name := "leave", params := []
    pre := .or [.lit ⟨"at-a", [], false⟩, .lit ⟨"at-b", [], false⟩]
    eff := .lit ⟨"outside", [], false⟩ }

/-- Being at one of the doors, written as not being at neither. -/
def notAtNeitherDoor : Condition :=
  .not (.and [.lit ⟨"at-a", [], true⟩, .lit ⟨"at-b", [], true⟩])

/-- The precondition of leaving is the normal form of not being at neither door, and leaving
is split into one operator per door. -/
theorem leave_splits_per_door :
    leaveOperator.pre = notAtNeitherDoor.normalize {} true ∧
      leaveOperator.split.map Operator.name = ["leave$1$", "leave$2$"] :=
  have hpre : leaveOperator.pre = notAtNeitherDoor.normalize {} true := by decide
  ⟨hpre, by rw [(split_preserves_meaning {} leaveOperator _ hpre).2.1 _ rfl]; decide⟩

/-- An operator whose precondition compares a fluent, or asks for `p`. -/
def gaugeOperator : Operator :=
  { name := "o", params := []
    pre := .or [.compare ⟨.lt, .fluent ⟨"f", []⟩, .const 3⟩, .lit ⟨"p", [], false⟩] }

/-- The precondition is its own normal form, and has no value since the comparison has none,
while the precondition of the second split operator is true when `p` holds. -/
theorem comparison_disjunct_has_no_value :
    gaugeOperator.pre = gaugeOperator.pre.normalize {} true ∧
      (gaugeOperator.pre.bind gaugeOperator.params []).evaluate {} (fun _ _ => true) = none ∧
      ∃ o ∈ gaugeOperator.split, (o.pre.bind o.params []).evaluate {} (fun _ _ => true) = some true :=
  ⟨by decide, rfl, by decide⟩

end Operator

/-- A conditional effect nested in another, whose prerequisite is a disjunction. -/
def nestedDisjunctiveEffect : Problem where
  predicates := [⟨"p", []⟩, ⟨"q", []⟩, ⟨"r", []⟩, ⟨"s", []⟩]
  operators := [{ name := "o", params := []
                  eff := .when (.lit ⟨"p", [], false⟩)
                    (.when (.or [.lit ⟨"q", [], false⟩, .lit ⟨"r", [], false⟩])
                      (.lit ⟨"s", [], false⟩)) }]

/-- Splitting leaves the inner conditional effect whole, so that with either strategy the
instance of `o` has a conditional effect whose guard keeps a formula, the disjunction. -/
theorem nested_conditional_effect_keeps_formula :
    ((nestedDisjunctiveEffect.preprocess {}).1.ground .naive).toOption.map
        (fun r => r.1.actions.map fun a => a.cond.map fun ce => ce.guard.formula.isSome) =
      some [[true]] ∧
    ((nestedDisjunctiveEffect.preprocess {}).1.ground .relaxedGraph).toOption.map
        (fun r => r.1.actions.map fun a => a.cond.map fun ce => ce.guard.formula.isSome) =
      some [[true]] := by
  decide +kernel

end Pddl
