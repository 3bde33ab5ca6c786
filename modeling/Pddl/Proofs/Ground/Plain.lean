import Pddl.Proofs.Preprocess.Split
/-!
# Plain preconditions

Without kept disjunctions, the preparation splits every operator along the disjunctions of its
normalized precondition. When no precondition has a conditional effect, a split precondition is
true or a clause of literals, comparisons and numeric effects (`Problem.plainClause_of_preprocess`);
binding objects and putting it in negation normal form leaves such a clause, or false
(`Condition.PlainClause.simplify`). Its guard then has no formula (`Grounder.guard_plain`): a
literal goes to the positive or negative atoms, a comparison or a numeric effect makes grounding
fail, and false drops the instance. Both strategies keep only instances of operators
(`Problem.ground_actions`), so every action of the ground problem has a precondition of atoms
only (`Problem.preprocess_ground_plain_preconditions`).

The hypothesis on conditional effects is needed: `(when (= ?x ?y) (or ..))` is an atom of the
normal form, and binding `?x` and `?y` to one object leaves the disjunction. Conditional effects
are another matter too: one nested in another keeps a disjunctive prerequisite, and its guard
keeps the formula (`nested_conditional_effect_keeps_formula`).
-/

namespace Pddl

namespace Condition

/-! ## Plain atoms and clauses -/

/-- A literal, a comparison or a numeric effect: the atoms of a precondition that has no
disjunction, negation, quantification or conditional effect. -/
def PlainAtom : Condition → Prop
  | .lit _ => True
  | .compare _ => True
  | .numEffect _ => True
  | _ => False

/-- The constant true, or a clause of plain atoms: the shape of a split precondition without
conditional effects. -/
def PlainClause (c : Condition) : Prop := c = tautology ∨ c.DnfClause PlainAtom

theorem PlainAtom.dnfAtom {x : Condition} (h : x.PlainAtom) : x.DnfAtom PlainAtom := by
  cases x <;> first | exact h.elim | exact h

/-- A clause that is not a conjunction is one atom. -/
theorem DnfClause.holds_of_ne_and {A : Condition → Prop} {d : Condition} (h : d.DnfClause A)
    (hd : ∀ cs, d ≠ .and cs) : A d := by
  cases d with
  | and cs => exact absurd rfl (hd cs)
  | or ds => exact h.elim
  | _ => exact h

theorem PlainAtom.subst {x : Condition} (h : x.PlainAtom) (σ : Subst) : (x.subst σ).PlainAtom := by
  cases x <;> first | exact h.elim | trivial

/-- A plain atom in negation normal form is a constant or a plain atom. -/
theorem simplify_of_plainAtom {x : Condition} (h : x.PlainAtom) (neg : Bool) :
    x.simplify neg = tautology ∨ x.simplify neg = contradiction ∨ (x.simplify neg).PlainAtom := by
  cases x with
  | lit l =>
      simp only [simplify]
      split
      exacts [.inl rfl, .inr (.inl rfl), .inr (.inr trivial)]
  | compare c =>
      simp only [simplify]
      split
      exacts [.inl rfl, .inr (.inl rfl), .inr (.inr trivial)]
  | numEffect _ => exact .inr (.inr trivial)
  | _ => exact h.elim

/-- A basic atom without conditional effect is plain. -/
theorem BasicAtom.plain {x : Condition} (h : x.BasicAtom) (hw : x.WhenFree) : x.PlainAtom := by
  cases x with
  | when p e => exact absurd rfl (hw.self p e)
  | _ => first | exact h.elim | trivial

/-- A clause of basic atoms without conditional effect is a clause of plain atoms. -/
theorem DnfClause.plain {d : Condition} (h : d.DnfClause BasicAtom) (hw : d.WhenFree) :
    d.DnfClause PlainAtom := by
  cases d with
  | and cs =>
      refine ⟨h.1, fun x hx => ?_⟩
      have hwx : x.WhenFree := (everywhereAll_iff.mp hw.2) x hx
      exact ((h.2 x hx).holds.plain hwx).dnfAtom
  | or ds => exact h.elim
  | _ => exact (h.holds_of_ne_and nofun).plain hw

namespace PlainClause

theorem subst {c : Condition} (h : c.PlainClause) (σ : Subst) : (c.subst σ).PlainClause := by
  rcases h with rfl | h
  · exact .inl rfl
  · right
    cases c with
    | and cs =>
        simp only [Condition.subst, substAll_eq_map]
        refine ⟨by simpa using h.1, fun x hx => ?_⟩
        obtain ⟨y, hy, rfl⟩ := List.mem_map.mp hx
        exact ((h.2 y hy).holds.subst σ).dnfAtom
    | or ds => exact h.elim
    | _ => exact ((h.holds_of_ne_and nofun).subst σ).dnfAtom.clause

/-- A conjunction of constants and plain atoms is false or a plain clause. -/
theorem conj_normalize {es : List Condition}
    (h : ∀ x ∈ es, x = tautology ∨ x = contradiction ∨ x.PlainAtom) :
    Junction.conj.normalize es = contradiction ∨ (Junction.conj.normalize es).PlainClause := by
  by_cases hc : contradiction ∈ es
  · left
    simp only [Junction.normalize, Junction.conj_flatten_eq_none_iff.mpr hc]
    rfl
  · right
    refine Junction.conj_normalize_clause fun x hx => ?_
    rcases h x hx with ht | hf | hp
    · exact .inl ht
    · exact absurd (hf ▸ hx) hc
    · exact .inr hp.dnfAtom.clause

/-- The negation normal form of a plain clause is false or a plain clause: its atoms become
constants or stay plain, and a conjunction with false is false. -/
theorem simplify {c : Condition} (h : c.PlainClause) :
    c.simplify false = contradiction ∨ (c.simplify false).PlainClause := by
  rcases h with rfl | h
  · exact .inr (.inl rfl)
  cases c with
  | and cs =>
      simp only [Condition.simplify, Bool.false_eq_true, ↓reduceIte]
      refine conj_normalize fun x hx => ?_
      rw [simplifyAll_eq_map] at hx
      obtain ⟨y, hy, rfl⟩ := List.mem_map.mp hx
      exact simplify_of_plainAtom (h.2 y hy).holds false
  | or ds => exact h.elim
  | _ =>
      rcases simplify_of_plainAtom (h.holds_of_ne_and nofun) false with ht | hf | hp
      · exact .inr (.inl ht)
      · exact .inl hf
      · exact .inr (.inr hp.dnfAtom.clause)

/-- Every top-level part of a plain clause is a plain atom. -/
theorem conjuncts {c : Condition} (h : c.PlainClause) : ∀ x ∈ Grounder.conjuncts c, x.PlainAtom := by
  rcases h with rfl | h
  · exact nofun
  cases c with
  | and cs => exact fun x hx => (h.2 x hx).holds
  | or ds => exact h.elim
  | _ =>
      intro x hx
      rw [List.mem_singleton.mp hx]
      exact h.holds_of_ne_and nofun

end PlainClause

end Condition

/-! ## Preconditions of the prepared operators -/

/-- The precondition of a split operator is a disjunct of the operator's precondition. -/
theorem Operator.pre_mem_disjuncts {op o : Operator} (h : o ∈ op.split) :
    o.pre ∈ op.pre.disjuncts :=
  split_pre op ▸ List.mem_map_of_mem h

namespace Problem

/-- Compiling costs keeps every operator's precondition. -/
theorem pre_of_mem_extractCosts {pb : Problem} {op' : Operator}
    (h : op' ∈ pb.extractCosts.1.operators) : ∃ op ∈ pb.operators, op'.pre = op.pre := by
  unfold extractCosts at h
  split at h
  · exact ⟨op', h, rfl⟩
  · split at h
    · exact ⟨op', h, rfl⟩
    · obtain ⟨⟨op, cost⟩, hmem, rfl⟩ := List.mem_map.mp h
      exact ⟨op, (List.of_mem_zip hmem).1, rfl⟩

/-- Without kept disjunctions, when no operator's precondition has a conditional effect, the
precondition of every prepared operator is true or a clause of plain atoms: a disjunct of the
normalized precondition of an operator. -/
theorem plainClause_of_preprocess {P : Problem} {cfg : Config} (hcfg : cfg.keepDisjunctions = false)
    (hw : ∀ op ∈ P.operators, op.pre.WhenFree) :
    ∀ o ∈ (P.preprocess cfg).1.operators, o.pre.PlainClause := by
  have hcost : ∀ op ∈ P.extractCosts.1.operators, op.pre.WhenFree := by
    intro op' hop'
    obtain ⟨op, hop, hpre⟩ := pre_of_mem_extractCosts hop'
    exact hpre ▸ hw op hop
  intro o ho
  unfold preprocess at ho
  generalize P.extractCosts = r at hcost ho
  obtain ⟨pb, warnings⟩ := r
  simp only [hcfg, Bool.not_false, ↓reduceIte, splitOperators] at ho
  -- `o` is a split of a normalized operator, so its precondition is a disjunct of the
  -- normalized precondition
  obtain ⟨op', hop', ho'⟩ := List.mem_flatMap.mp ho
  obtain ⟨op, hop, rfl⟩ := List.mem_map.mp hop'
  have hd : o.pre ∈ (op.pre.normalize pb true).disjuncts := Operator.pre_mem_disjuncts ho'
  have hwd : o.pre.WhenFree :=
    (Condition.everywhere_normalize Condition.kindProperty_whenFree true (hcost op hop)).of_mem_disjuncts hd
  obtain ⟨-, -, htaut | hclause⟩ := Condition.disjuncts_of_normalize op.pre o.pre hd
  · exact .inl htaut
  · exact .inr (hclause.plain hwd)

end Problem

/-! ## Guards of plain clauses -/

namespace Grounder

open GroundM Condition

variable {pb : Problem} {ctx : String}

/-- The formula of a comparison or a numeric effect fails. -/
theorem formula_of_plainAtom {d : Condition} (h : d.PlainAtom) (hd : ∀ l, d ≠ .lit l) (n : Nat) :
    Meets (fun _ => True) (fun _ => False) (formula pb ctx (n + 1) d) := by
  cases d with
  | lit l => exact absurd rfl (hd l)
  | compare _ => exact Meets.throw trivial
  | numEffect _ => exact Meets.throw trivial
  | _ => exact h.elim

/-- A condition that is false in negation normal form has no guard: its only part is the empty
disjunction, whose formula is the one that never holds. -/
theorem guard_of_simplify_eq_contradiction {c : Condition} (h : c.simplify false = contradiction) :
    guard pb ctx c = pure none := by
  unfold guard
  simp [h, conjuncts, contradiction, formula, normalized]

/-- The guard of a plain clause, when there is one, has no formula: every part of the clause in
negation normal form is a literal, which goes to the positive or negative atoms, or fails. -/
theorem guard_plain {c : Condition} (hc : c.PlainClause) :
    Meets (fun _ => True) (fun r => ∀ g ∈ r, g.formula = none) (guard pb ctx c) := by
  rcases hc.simplify with hs | hs
  · rw [guard_of_simplify_eq_contradiction hs]
    exact Meets.pure nofun
  unfold guard
  -- the fold leaves no residual formula
  refine (Meets.foldlM (fun acc => acc.2.2 = []) rfl fun acc d hd hacc => ?_).bind fun r hr => ?_
  · split
    · exact Meets.anything.bind fun _ _ => Meets.pure (by split <;> exact hacc)
    · rename_i hne
      exact (formula_of_plainAtom (hs.conjuncts d hd) hne _).bind fun _ hf => hf.elim
  · obtain ⟨pos, neg, residual⟩ := r
    dsimp only at hr
    subst hr
    refine Meets.ite (Meets.pure nofun) (Meets.ite (Meets.pure nofun) (Meets.pure ?_))
    intro g hg
    cases hg
    rfl

/-- The instance of an operator whose precondition is a plain clause, when there is one, has a
precondition without formula. -/
theorem action_plain {op : Operator} (hpre : op.pre.PlainClause) (args : List Argument) :
    Meets (fun _ => True) (fun r => ∀ a ∈ r, a.pre.formula = none) (action pb op args) := by
  unfold action
  refine (guard_plain (hpre.subst _)).bind fun r hr => ?_
  split
  · rename_i pre
    refine Meets.anything.bind fun effs _ => Meets.anything.bind fun acc _ => ?_
    obtain ⟨add, del, conds⟩ := acc
    refine Meets.pure fun a ha => ?_
    cases ha
    exact hr pre rfl
  · exact Meets.pure nofun

end Grounder

/-! ## Actions of the ground problem

Both strategies keep only instances of operators, so a property of every instance holds of every
action of the ground problem. -/

/-- Every action of the frontier, selected or pending, has the property. -/
def Frontier.AllActions (Q : Action → Prop) (f : Frontier) : Prop :=
  (∀ a ∈ f.actions, Q a) ∧ ∀ a ∈ f.pendingActions, Q a

namespace Grounder

open GroundM

variable {pb : Problem}

theorem instantiateAll_all {α β : Type} {E : GroundingError → Prop} {Q : β → Prop}
    (schemas : List α) (params : α → List Param) (inst : α → List Argument → GroundM (Option β))
    (h : ∀ s ∈ schemas, ∀ args, Meets E (fun r => ∀ b ∈ r, Q b) (inst s args)) :
    Meets E (fun bs => ∀ b ∈ bs, Q b) (instantiateAll pb schemas params inst) := by
  unfold instantiateAll
  refine Meets.foldlM (fun bs => ∀ b ∈ bs, Q b) nofun fun _ s hs hacc => ?_
  refine Meets.foldlM (fun bs => ∀ b ∈ bs, Q b) hacc fun acc args _ hacc' => ?_
  refine (h s hs args).bind fun r hr => ?_
  split
  · rename_i b
    exact Meets.pure (List.forall_mem_append.mpr ⟨hacc', List.forall_mem_singleton.mpr (hr b rfl)⟩)
  · exact Meets.pure hacc'

theorem instantiateNew_all {β : Type} {E : GroundingError → Prop} {Q : β → Prop} {i : Nat}
    {bindings : List (List Argument)} {inst : List Argument → GroundM (Option β)}
    {seen : List (Nat × List String)} {pending : List β} (hpending : ∀ b ∈ pending, Q b)
    (h : ∀ args, Meets E (fun r => ∀ b ∈ r, Q b) (inst args)) :
    Meets E (fun r => ∀ b ∈ r.2, Q b) (instantiateNew i bindings inst seen pending) := by
  unfold instantiateNew
  refine Meets.foldlM (fun acc : List (Nat × List String) × List β => ∀ b ∈ acc.2, Q b) hpending fun acc args _ hacc => ?_
  refine Meets.ite (Meets.pure hacc) ((h args).bind fun r hr => ?_)
  split
  · rename_i b
    exact Meets.pure (List.forall_mem_append.mpr ⟨hacc, List.forall_mem_singleton.mpr (hr b rfl)⟩)
  · exact Meets.pure hacc

section Instances

variable {Q : Action → Prop}

/-- Every instance of every operator, when there is one, has the property. -/
def InstancesSatisfy (pb : Problem) (Q : Action → Prop) : Prop :=
  ∀ op ∈ pb.operators, ∀ args, Meets (fun _ => True) (fun r => ∀ a ∈ r, Q a) (action pb op args)

/-- Finishing keeps the selected actions. -/
theorem finish_actions {R : List Action → Prop} {actions : List Action} (h : R actions)
    (axioms : List GroundAxiom) :
    Meets (fun _ => True) (fun r => R r.1.actions) (finish pb actions axioms) := by
  unfold finish
  refine Meets.anything.bind fun _ _ => Meets.anything.bind fun _ _ => ?_
  refine Meets.anything.bind fun g _ => Meets.anything.bind fun r _ => ?_
  obtain ⟨axioms, strata⟩ := r
  exact Meets.pure h

theorem groundNaive_actions (hops : InstancesSatisfy pb Q) :
    Meets (fun _ => True) (fun r => ∀ a ∈ r.1.actions, Q a) (groundNaive pb) := by
  unfold groundNaive
  refine Meets.anything.bind fun _ _ => ?_
  refine (instantiateAll_all _ _ _ hops).bind fun actions hactions => ?_
  refine Meets.anything.bind fun axioms _ => ?_
  exact @finish_actions pb (fun as => ∀ a ∈ as, Q a) actions hactions axioms

theorem reach_all {E : GroundingError → Prop} {f : Frontier} (hf : f.AllActions Q) (a : AtomId) :
    Meets E (fun r => r.1.AllActions Q) (reach f a) := by
  unfold reach
  exact Meets.ite (Meets.pure hf) (Meets.get.bind fun _ _ => Meets.pure hf)

/-- A round selects pending actions and adds new instances to the pending ones. -/
theorem reachRound_all (hops : InstancesSatisfy pb Q)
    (first : Bool) {f : Frontier} (hf : f.AllActions Q) :
    Meets (fun _ => True) (fun r => r.1.AllActions Q) (reachRound pb first f) := by
  unfold reachRound
  refine (Meets.foldlM (fun acc => ∀ a ∈ acc.2, Q a) hf.2 fun acc x hx hacc => ?_).bind
    fun r hr => ?_
  · obtain ⟨op, i⟩ := x
    exact instantiateNew_all hacc (hops op (List.fst_mem_of_mem_zipIdx hx))
  obtain ⟨seenActions, pendingActions⟩ := r
  refine Meets.anything.bind fun r _ => ?_
  obtain ⟨seenAxioms, pendingAxioms⟩ := r
  have hsel : ∀ a ∈ f.actions ++ pendingActions.filter (·.pre.relaxedHolds f.layer), Q a :=
    List.forall_mem_append.mpr ⟨hf.1, fun a ha => hr a (List.mem_of_mem_filter ha)⟩
  have hpend : ∀ a ∈ pendingActions.filter (fun a => !a.pre.relaxedHolds f.layer), Q a :=
    fun a ha => hr a (List.mem_of_mem_filter ha)
  refine Meets.foldlM (fun acc : Frontier × Nat => acc.1.AllActions Q) (And.intro hsel hpend) fun acc a _ hacc => ?_
  refine (reach_all hacc a).bind fun r hr => ?_
  obtain ⟨f', isNew⟩ := r
  exact Meets.pure hr

theorem reachRounds_all (hops : InstancesSatisfy pb Q) :
    ∀ (fuel : Nat) (first : Bool) {f : Frontier}, f.AllActions Q →
      Meets (fun _ => True) (fun f' => f'.AllActions Q) (reachRounds pb fuel first f)
  | 0, _, _, hf => Meets.pure hf
  | n + 1, first, f, hf => by
      simp only [reachRounds]
      refine (reachRound_all hops first hf).bind fun r hr => ?_
      obtain ⟨f', count⟩ := r
      exact Meets.ite (Meets.pure hr) (reachRounds_all hops n false hr)

theorem groundReachable_actions (hops : InstancesSatisfy pb Q) :
    Meets (fun _ => True) (fun r => ∀ a ∈ r.1.actions, Q a) (groundReachable pb) := by
  unfold groundReachable
  have hempty : (({} : Frontier)).AllActions Q := And.intro nofun nofun
  refine (Meets.foldlM (fun f => f.AllActions Q) hempty fun f l _ hf => ?_).bind fun f hf => ?_
  · refine Meets.anything.bind fun a _ => (reach_all hf a).bind fun r hr => ?_
    obtain ⟨f', isNew⟩ := r
    exact Meets.pure hr
  · refine (reachRounds_all hops _ true hf).bind fun f' hf' => ?_
    exact @finish_actions pb (fun as => ∀ a ∈ as, Q a) f'.actions hf'.1 f'.axioms

end Instances

end Grounder

/-- With either strategy, when every instance of every operator has a property, so does every
action of the ground problem. -/
theorem Problem.ground_actions {Q : Action → Prop} {pb : Problem}
    (hops : Grounder.InstancesSatisfy pb Q)
    (strategy : GroundingStrategy) {G : GroundProblem} {warnings : List String}
    (h : pb.ground strategy = .ok (G, warnings)) : ∀ a ∈ G.actions, Q a := by
  cases strategy with
  | naive => exact (Grounder.groundNaive_actions hops).run'_ok h
  | relaxedGraph => exact (Grounder.groundReachable_actions hops).run'_ok h

/-- Without kept disjunctions, when no operator's precondition has a conditional effect, every
action of the ground problem of the prepared problem, with either strategy, has a precondition of
atoms only: its guard has no formula. -/
theorem Problem.preprocess_ground_plain_preconditions (P : Problem) (cfg : Config)
    (hcfg : cfg.keepDisjunctions = false) (hw : ∀ op ∈ P.operators, op.pre.WhenFree)
    (strategy : GroundingStrategy) {G : GroundProblem} {warnings : List String}
    (h : (P.preprocess cfg).1.ground strategy = .ok (G, warnings)) :
    ∀ a ∈ G.actions, a.pre.formula = none := by
  have hpre : ∀ o ∈ (P.preprocess cfg).1.operators, o.pre.PlainClause :=
    plainClause_of_preprocess hcfg hw
  have hops : Grounder.InstancesSatisfy (P.preprocess cfg).1 fun a => a.pre.formula = none :=
    fun o ho => Grounder.action_plain (hpre o ho)
  exact ground_actions hops strategy h

/-- A door opened by a key held, or when it is unlocked. -/
def doorProblem : Problem where
  objects := [⟨"k1", "object"⟩, ⟨"k2", "object"⟩]
  predicates := [⟨"holds", [⟨"k", "object"⟩]⟩, ⟨"unlocked", []⟩, ⟨"open", []⟩]
  operators := [{ name := "open", params := []
                  pre := .or [.quant .any [⟨"k", "object"⟩] (.lit ⟨"holds", [.var ⟨"k", "object"⟩], false⟩),
                              .lit ⟨"unlocked", [], false⟩]
                  eff := .lit ⟨"open", [], false⟩ }]
  init := [⟨"holds", [.const ⟨"k1", "object"⟩], false⟩]

/-- The door's operator is split in one operator per key and one for the unlocked door, and
every action of the naive ground problem has a precondition of atoms only. -/
theorem door_actions_have_plain_preconditions :
    ∃ G w, (doorProblem.preprocess {}).1.ground .naive = .ok (G, w) ∧
      ∀ a ∈ G.actions, a.pre.formula = none := by
  obtain ⟨G, w, h⟩ : ∃ G w, (doorProblem.preprocess {}).1.ground .naive = .ok (G, w) :=
    ⟨_, _, by cbv⟩
  have hw : ∀ op ∈ doorProblem.operators, op.pre.WhenFree := by
    simp [doorProblem, Condition.Everywhere, Condition.EverywhereAll]
  exact ⟨G, w, h, Problem.preprocess_ground_plain_preconditions doorProblem {} rfl hw .naive h⟩

end Pddl
