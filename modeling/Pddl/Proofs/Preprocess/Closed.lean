import Pddl.Preprocess.Pipeline
import Pddl.Proofs.Ground.Failures
/-!
# Preparation keeps problems closed

Each step of the preparation only rearranges the nodes of a condition or replaces a
quantification by its instances over objects, so a closed problem stays closed: compiling
`total-cost` drops numeric effects, eliminating quantifiers binds their variables to objects,
the normal forms keep every node's variables, and splitting takes operators and conditional
effects apart along their disjunctions. Grounding the prepared problem therefore fails on no
literal either.

The traversals and the splitting are treated once for every property that holds of a condition
by its parts (`Condition.ByParts`), in a scope that quantifications extend
(`Condition.ScopedByParts`); being bound in a scope is one such property.
-/

namespace Pddl

namespace Condition

/-! ## Properties that hold of a condition by its parts -/

/-- A property that holds of a junction, or of a conditional effect, exactly when it holds of
their parts. Splitting keeps every such property. -/
structure ByParts (Q : Condition → Prop) : Prop where
  and : ∀ cs, Q (.and cs) ↔ ∀ c ∈ cs, Q c
  or : ∀ cs, Q (.or cs) ↔ ∀ c ∈ cs, Q c
  when : ∀ p e, Q (.when p e) ↔ Q p ∧ Q e

/-- A property of conditions read in a scope of variable names that holds by parts in every
scope, of a negation when it holds of its operand, and of a quantification when it holds of its
body in the scope its variables extend. Being bound in the scope is one; bottom-up
transformations that keep it node by node keep it. -/
structure ScopedByParts (Q : List String → Condition → Prop) : Prop where
  parts : ∀ names, ByParts (Q names)
  not : ∀ names c, Q names (.not c) ↔ Q names c
  quant : ∀ names q vs c, Q names (.quant q vs c) ↔ Q (names ++ vs.map Param.name) c

theorem byParts_boundIn (names : List String) : ByParts (BoundIn names) :=
  ⟨fun _ => boundIn_and, fun _ => boundIn_or, fun _ _ => Iff.rfl⟩

theorem scopedByParts_boundIn : ScopedByParts BoundIn :=
  ⟨byParts_boundIn, fun _ _ => Iff.rfl, fun _ _ _ _ => Iff.rfl⟩

theorem ByParts.getD {Q : Condition → Prop} (hQ : ByParts Q) {o : Option Condition}
    (h : ∀ c ∈ o, Q c) : Q (o.getD tautology) := by
  cases o with
  | none => exact (hQ.and []).mpr (List.forall_mem_nil _)
  | some c => exact h c rfl

namespace ScopedByParts

variable {Q : List String → Condition → Prop} {f : Condition → Id (Option Condition)}

mutual

/-- A bottom-up transformation keeps a property by parts when every node it makes has the
property wherever the node it transforms has it. -/
theorem transformBottomUp (hQ : ScopedByParts Q)
    (hf : ∀ names d, Q names d → ∀ d' ∈ Id.run (f d), Q names d') :
    ∀ {names : List String} (c : Condition), Q names c →
      ∀ c' ∈ Id.run (c.transformBottomUp f), Q names c'
  | names, .and cs, h =>
      hf names _ (((hQ.parts names).and _).mpr
        (transformBottomUpAll hQ hf cs (((hQ.parts names).and cs).mp h)))
  | names, .or cs, h =>
      hf names _ (((hQ.parts names).or _).mpr
        (transformBottomUpAll hQ hf cs (((hQ.parts names).or cs).mp h)))
  | names, .not c, h =>
      hf names _ ((hQ.not names _).mpr
        ((hQ.parts names).getD (transformBottomUp hQ hf c ((hQ.not names c).mp h))))
  | names, .quant q vs c, h =>
      hf names _ ((hQ.quant names q vs _).mpr
        ((hQ.parts _).getD (transformBottomUp hQ hf c ((hQ.quant names q vs c).mp h))))
  | names, .when p c, h => by
      have hpc := ((hQ.parts names).when p c).mp h
      exact hf names _ (((hQ.parts names).when _ _).mpr
        ⟨(hQ.parts names).getD (transformBottomUp hQ hf p hpc.1),
          (hQ.parts names).getD (transformBottomUp hQ hf c hpc.2)⟩)
  | names, .lit _, h => hf names _ h
  | names, .numEffect _, h => hf names _ h
  | names, .compare _, h => hf names _ h

theorem transformBottomUpAll (hQ : ScopedByParts Q)
    (hf : ∀ names d, Q names d → ∀ d' ∈ Id.run (f d), Q names d') :
    ∀ {names : List String} (cs : List Condition), (∀ c ∈ cs, Q names c) →
      ∀ c' ∈ Id.run (transformBottomUpAll f cs), Q names c'
  | _, [], _ => by simp [Condition.transformBottomUpAll]
  | names, c :: cs, h => by
      have hc := transformBottomUp hQ hf c (h c (.head _))
      have hcs := transformBottomUpAll hQ hf cs fun c' hc' => h c' (.tail _ hc')
      intro c' hc'
      simp only [Condition.transformBottomUpAll, Id.run_bind] at hc'
      split at hc'
      · rename_i d hd
        rcases List.mem_cons.mp hc' with rfl | hc'
        · exact hc _ hd
        · exact hcs c' hc'
      · exact hcs c' hc'

end

theorem transformBottomUp_getD (hQ : ScopedByParts Q)
    (hf : ∀ names d, Q names d → ∀ d' ∈ Id.run (f d), Q names d') (names : List String)
    {c : Condition} (h : Q names c) : Q names ((Id.run (c.transformBottomUp f)).getD tautology) :=
  (hQ.parts names).getD (hQ.transformBottomUp hf c h)

/-- Eliminating quantifiers keeps a property by parts that expanding one quantification keeps. -/
theorem eliminateQuantifiers (hQ : ScopedByParts Q) {pb : Problem}
    (hexp : ∀ names d, Q names d → Q names (d.expandQuantifier pb)) (names : List String)
    {c : Condition} (h : Q names c) : Q names (c.eliminateQuantifiers pb) :=
  hQ.transformBottomUp_getD (fun names d hd d' hd' => by
    cases hd'
    exact hexp names d hd) names h

/-- Dropping the changes of `total-cost` keeps every property by parts: each node is kept or
dropped. -/
theorem withoutCostEffects (hQ : ScopedByParts Q) (names : List String) {c : Condition}
    (h : Q names c) : Q names c.withoutCostEffects :=
  hQ.transformBottomUp_getD (fun _ d hd d' hd' => by
    simp only [Id.run] at hd'
    split at hd'
    · cases hd'
    · cases hd'
      exact hd) names h

end ScopedByParts

theorem boundIn_expandQuantifier {pb : Problem} {names : List String} {c : Condition}
    (h : c.BoundIn names) : (c.expandQuantifier pb).BoundIn names := by
  unfold expandQuantifier
  split
  · rename_i q vs body
    -- every instance binds the quantified variables to objects
    have hinst : ∀ t ∈ pb.bindings vs, (body.bind vs t).BoundIn names :=
      fun t ht => boundIn_bind_of_groundArgs h (groundArgs_of_mem_bindings ht)
    cases q <;> simpa using hinst
  · exact h

theorem boundIn_eliminateQuantifiers {pb : Problem} {names : List String} {c : Condition}
    (h : c.BoundIn names) : (c.eliminateQuantifiers pb).BoundIn names :=
  scopedByParts_boundIn.eliminateQuantifiers (fun _ _ hd => boundIn_expandQuantifier hd) names h

theorem boundIn_withoutCostEffects {names : List String} {c : Condition} (h : c.BoundIn names) :
    c.withoutCostEffects.BoundIn names :=
  scopedByParts_boundIn.withoutCostEffects names h

theorem boundIn_normalize {pb : Problem} {toDnf : Bool} {names : List String} {c : Condition}
    (h : c.BoundIn names) : (c.normalize pb toDnf).BoundIn names := by
  have he : (c.eliminateQuantifiers pb).BoundIn names := boundIn_eliminateQuantifiers h
  have hs := boundIn_simplify false _ he
  unfold normalize
  split
  · exact boundIn_dnf _ hs
  · exact hs

end Condition

/-! ## Splitting keeps what holds of every part -/

namespace Condition.ByParts

variable {Q : Condition → Prop}

theorem of_mem_splitConditional (hQ : ByParts Q) {p e c : Condition} (h : Q (.when p e))
    (hc : c ∈ splitConditional p e) : Q c := by
  have hpe := (hQ.when p e).mp h
  unfold splitConditional at hc
  split at hc
  · obtain ⟨d, hd, rfl⟩ := List.mem_map.mp hc
    exact (hQ.when d e).mpr ⟨(hQ.or _).mp hpe.1 d hd, hpe.2⟩
  · rw [List.mem_singleton.mp hc]
    exact h

theorem splitEffect (hQ : ByParts Q) {c : Condition} (h : Q c) : Q (splitEffect c) := by
  unfold Pddl.splitEffect
  split
  · rename_i p e
    split
    · rename_i c' hc'
      exact hQ.of_mem_splitConditional h (hc' ▸ List.mem_singleton_self c')
    · exact (hQ.and _).mpr fun c' hc' => hQ.of_mem_splitConditional h hc'
  · rename_i cs
    refine (hQ.and _).mpr fun c' hc' => ?_
    obtain ⟨d, hd, hc'⟩ := List.mem_flatMap.mp hc'
    have hd := (hQ.and cs).mp h d hd
    split at hc'
    · exact hQ.of_mem_splitConditional hd hc'
    · rw [List.mem_singleton.mp hc']
      exact hd
  · exact h

/-- The operators split from one whose conditions have a property, read in the scope of its
parameters, have it in the scope of theirs. -/
theorem of_mem_split {Q : List Param → Condition → Prop} (hQ : ∀ ps, ByParts (Q ps))
    {op op' : Operator} (h : Q op.params op.pre ∧ Q op.params op.eff) (hop' : op' ∈ op.split) :
    Q op'.params op'.pre ∧ Q op'.params op'.eff := by
  unfold Operator.split at hop'
  split at hop'
  · rename_i ds hpre
    obtain ⟨⟨d, i⟩, hd, rfl⟩ := List.mem_map.mp hop'
    rw [hpre] at h
    exact ⟨((hQ _).or ds).mp h.1 d (List.fst_mem_of_mem_zipIdx hd), (hQ _).splitEffect h.2⟩
  · rw [List.mem_singleton.mp hop']
    exact ⟨h.1, (hQ _).splitEffect h.2⟩

end Condition.ByParts

namespace Problem.Closed

variable {pb : Problem}

theorem extractCosts (h : pb.Closed) : pb.extractCosts.1.Closed := by
  unfold Problem.extractCosts
  split
  · exact h
  · split
    · exact h
    · refine ⟨fun op' hop' => ?_, h.axioms_bound, h.goals_closed, h.init_ground⟩
      obtain ⟨⟨op, cost⟩, hmem, rfl⟩ := List.mem_map.mp hop'
      have hop := h.operators_bound op (List.of_mem_zip hmem).1
      exact ⟨hop.1, Condition.boundIn_withoutCostEffects hop.2⟩

theorem normalize (h : pb.Closed) (toDnf : Bool) : (pb.normalize toDnf).Closed := by
  refine ⟨fun op' hop' => ?_, fun ax' hax' => ?_, fun g hg => ?_, h.init_ground⟩
  · obtain ⟨op, hop, rfl⟩ := List.mem_map.mp hop'
    exact ⟨Condition.boundIn_normalize (h.operators_bound op hop).1,
      Condition.boundIn_normalize (h.operators_bound op hop).2⟩
  · obtain ⟨ax, hax, rfl⟩ := List.mem_map.mp hax'
    exact Condition.boundIn_normalize (h.axioms_bound ax hax)
  · rw [List.mem_singleton.mp hg]
    exact Condition.boundIn_normalize (Condition.boundIn_and.mpr h.goals_closed)

theorem splitOperators (h : pb.Closed) : { pb with operators := splitOperators pb.operators }.Closed := by
  refine ⟨fun op' hop' => ?_, h.axioms_bound, h.goals_closed, h.init_ground⟩
  obtain ⟨op, hop, hop'⟩ := List.mem_flatMap.mp hop'
  exact Condition.ByParts.of_mem_split (fun ps => Condition.byParts_boundIn (ps.map Param.name))
    (h.operators_bound op hop) hop'

/-- Preparation keeps a problem closed. -/
theorem preprocess (h : pb.Closed) (cfg : Config) : (pb.preprocess cfg).1.Closed := by
  have hcost := h.extractCosts
  unfold Problem.preprocess
  generalize pb.extractCosts = r at hcost ⊢
  obtain ⟨pb', warnings⟩ := r
  have hnorm := hcost.normalize (!cfg.keepDisjunctions)
  simp only
  split
  · exact hnorm.splitOperators
  · exact hnorm

end Problem.Closed

/-! ## Grounding checked problems -/

/-- For a problem that `check` accepts, with ground initial atoms: binding a condition's
parameters to objects leaves no free variable exactly when `checkBound` accepts it; the atom table
refuses a literal exactly when a variable is left in it; and grounding the problem, or its
preparation under any configuration, with either strategy, never ends on that refusal, so every
literal the atom table is asked for is ground. -/
theorem checked_problem_grounds_closed_literals (P : Problem) (hcheck : P.check = .ok ())
    (hinit : ∀ l ∈ P.init, l.isGround = true) (cfg : Config) (strategy : GroundingStrategy) :
    (∀ (ctx : String) (params : List Param) (c : Condition) (args : List Argument),
        GroundArgs params args →
          ((c.bind params args).freeVars = [] ↔ checkBound ctx params c = .ok ())) ∧
      (∀ (ctx : String) (l : Literal) (g : Grounder) (e : GroundingError),
        (Grounder.atomOf ctx l).run g = .error e ↔ l.isGround = false ∧ e = .malformedLiteral l ctx) ∧
      (∀ (l : Literal) (ctx : String), P.ground strategy ≠ .error (.malformedLiteral l ctx)) ∧
      (∀ (l : Literal) (ctx : String),
        (P.preprocess cfg).1.ground strategy ≠ .error (.malformedLiteral l ctx)) := by
  have hclosed := Problem.closed_of_check hcheck hinit
  refine ⟨fun ctx params c args hargs => Condition.freeVars_bind_eq_nil_iff hargs,
    fun ctx l g e => Grounder.atomOf_run_eq_error, ?_, ?_⟩
  · intro l ctx he
    exact hclosed.ground_error strategy he
  · intro l ctx he
    exact (hclosed.preprocess cfg).ground_error strategy he

/-- Lamps switched on one at a time: switching needs every lamp off, and the goal wants some
lamp on. -/
def lampsProblem : Problem where
  objects := [⟨"a", "object"⟩, ⟨"b", "object"⟩]
  predicates := [⟨"on", [⟨"x", "object"⟩]⟩]
  operators := [{ name := "switch", params := [⟨"x", "object"⟩]
                  pre := .quant .all [⟨"y", "object"⟩] (.lit ⟨"on", [.var ⟨"y", "object"⟩], true⟩)
                  eff := .lit ⟨"on", [.var ⟨"x", "object"⟩], false⟩ }]
  goals := [.quant .any [⟨"x", "object"⟩] (.lit ⟨"on", [.var ⟨"x", "object"⟩], false⟩)]

theorem lamps_ground_closed_literals :
    lampsProblem.check = .ok () ∧ (∀ l ∈ lampsProblem.init, l.isGround = true) ∧
      ∀ (l : Literal) (ctx : String),
        (lampsProblem.preprocess {}).1.ground .relaxedGraph ≠ .error (.malformedLiteral l ctx) :=
  ⟨rfl, by simp [lampsProblem],
    (checked_problem_grounds_closed_literals lampsProblem rfl (by simp [lampsProblem]) {}
      .relaxedGraph).2.2.2⟩

end Pddl
