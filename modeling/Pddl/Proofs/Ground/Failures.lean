import Pddl.Ground.Strategy
import Pddl.Proofs.Condition.Closed
/-!
# What grounding can fail on

Grounding a closed problem never meets a literal with a variable left, whichever strategy
instantiates it: operators and axioms are only instantiated with objects, one for each
parameter, quantifications are expanded over objects, the prerequisites of conditional effects
are built from closed parts, and the initial atoms and the goals are closed to begin with. So
when grounding fails, it is on a numeric condition, a disjunctive effect, a derived predicate
that is not stratifiable, or an element out of place other than a literal: a negation, a
conditional effect or a numeric effect in a condition, or a comparison in an effect. The atom
table, the one place that refuses a literal with a variable left, is never reached with one.

The grounder runs in a state monad over errors. `GroundM.Meets E P x` says that every run of `x`
fails with an error in `E` or returns a value in `P`; it is proved for each function of the
grounder from the same judgement on the functions it calls.
-/

namespace Pddl

/-- The error is not the refusal of a literal with a variable left, the only error the atom
table raises (`atomOf_run_eq_error`). -/
def GroundingError.NotFromLiteral : GroundingError → Prop
  | .malformedLiteral .. => False
  | _ => True

/-- The outcome of a run: an error in `E`, or a value in `P`. -/
def Outcome {α : Type} (E : GroundingError → Prop) (P : α → Prop) :
    Except GroundingError (α × Grounder) → Prop
  | .ok (a, _) => P a
  | .error e => E e

namespace GroundM

/-- Every run of `x`, from any grounder, fails with an error in `E` or returns a value in `P`. -/
def Meets {α : Type} (E : GroundingError → Prop) (P : α → Prop) (x : GroundM α) : Prop :=
  ∀ g, Outcome E P (x.run g)

variable {α β : Type} {E : GroundingError → Prop}

theorem Meets.pure {P : α → Prop} {a : α} (h : P a) : Meets E P (pure a) := fun _ => h

theorem Meets.bind {Q : α → Prop} {P : β → Prop} {x : GroundM α} {f : α → GroundM β}
    (hx : Meets E Q x) (hf : ∀ a, Q a → Meets E P (f a)) : Meets E P (x >>= f) := by
  intro g
  have hg := hx g
  rw [StateT.run_bind]
  cases hrun : x.run g with
  | error e =>
      rw [hrun] at hg
      exact hg
  | ok p =>
      rw [hrun] at hg
      exact hf p.1 hg p.2

theorem Meets.map {Q : α → Prop} {P : β → Prop} {x : GroundM α} {f : α → β}
    (hx : Meets E Q x) (hf : ∀ a, Q a → P (f a)) : Meets E P (f <$> x) := by
  rw [map_eq_pure_bind]
  exact hx.bind fun a ha => Meets.pure (hf a ha)

theorem Meets.throw {P : α → Prop} {e : GroundingError} (h : E e) : Meets E P (throw e) :=
  fun _ => h

theorem Meets.ite {P : α → Prop} {c : Prop} [Decidable c] {x y : GroundM α} (hx : Meets E P x)
    (hy : Meets E P y) : Meets E P (if c then x else y) := by
  split
  · exact hx
  · exact hy

theorem Meets.get : Meets E (fun _ => True) (get : GroundM Grounder) := fun _ => trivial

theorem Meets.modifyGet {f : Grounder → α × Grounder} : Meets E (fun _ => True) (modifyGet f) :=
  fun _ => trivial

theorem Meets.modify {f : Grounder → Grounder} : Meets E (fun _ => True) (modify f) :=
  fun _ => trivial

theorem Meets.lift {x : Except GroundingError α} (h : ∀ e, x = .error e → E e) :
    Meets E (fun _ => True) (StateT.lift x) := by
  intro g
  cases hx : x with
  | error e =>
      show Outcome E _ (Except.error e >>= _)
      exact h e hx
  | ok a => trivial

/-- A computation that meets `E` fails, when run, with an error in `E`. -/
theorem Meets.run'_error {P : α → Prop} {x : GroundM α} (hx : Meets E P x) {g : Grounder}
    {e : GroundingError} (h : x.run' g = .error e) : E e := by
  have hg := hx g
  rw [StateT.run'_eq] at h
  cases hrun : x.run g with
  | error e' =>
      rw [hrun] at h hg
      cases h
      exact hg
  | ok p =>
      rw [hrun] at h
      cases h

/-- Every successful run of any computation returns some value. -/
theorem Meets.anything {x : GroundM α} : Meets (fun _ => True) (fun _ => True) x := by
  intro g
  rcases x.run g with e | ⟨a, g'⟩ <;> exact True.intro

/-- A computation that meets `P` returns, when it succeeds, a value in `P`. -/
theorem Meets.run'_ok {E : GroundingError → Prop} {P : α → Prop} {x : GroundM α} (hx : Meets E P x)
    {g : Grounder} {a : α} (h : x.run' g = .ok a) : P a := by
  have hg := hx g
  rw [StateT.run'_eq] at h
  cases hrun : x.run g with
  | error e =>
      rw [hrun] at h
      cases h
  | ok p =>
      obtain ⟨a', g'⟩ := p
      rw [hrun] at h hg
      cases h
      exact hg

/-- A fold meets an invariant that holds at the start and that each step keeps. -/
theorem Meets.foldlM {f : β → α → GroundM β} (I : β → Prop) :
    ∀ {xs : List α} {init : β}, I init → (∀ b x, x ∈ xs → I b → Meets E I (f b x)) →
      Meets E I (xs.foldlM f init)
  | [], _, h0, _ => Meets.pure h0
  | x :: xs, init, h0, hf => by
      rw [List.foldlM_cons]
      exact (hf init x (.head _) h0).bind fun b hb =>
        Meets.foldlM I hb fun b' y hy => hf b' y (.tail _ hy)

theorem Meets.mapM {f : α → GroundM β} :
    ∀ {xs : List α}, (∀ x ∈ xs, Meets E (fun _ => True) (f x)) → Meets E (fun _ => True) (xs.mapM f)
  | [], _ => by
      rw [List.mapM_nil]
      exact Meets.pure trivial
  | x :: xs, h => by
      rw [List.mapM_cons]
      exact (h x (.head _)).bind fun _ _ =>
        (Meets.mapM fun y hy => h y (.tail _ hy)).bind fun _ _ => Meets.pure trivial

theorem Meets.forIn {f : α → β → GroundM (ForInStep β)} :
    ∀ {xs : List α} {b : β}, (∀ x ∈ xs, ∀ b, Meets E (fun _ => True) (f x b)) →
      Meets E (fun _ => True) (forIn xs b f)
  | [], _, _ => Meets.pure trivial
  | x :: xs, b, h => by
      rw [List.forIn_cons]
      refine (h x (.head _) b).bind fun step _ => ?_
      cases step with
      | done _ => exact Meets.pure trivial
      | yield _ => exact Meets.forIn fun y hy => h y (.tail _ hy)

end GroundM

namespace Grounder

open GroundM Condition

/-! ## Atoms, formulas and guards -/

/-- The names of the arguments are missing exactly when one of them is a variable. -/
theorem constNames_eq_none : ∀ {args : List Argument},
    constNames args = none ↔ args.all Argument.isConst = false
  | [] => by simp [constNames]
  | .const o :: as => by simp [constNames, Argument.isConst, @constNames_eq_none as]
  | .var _ :: _ => by simp [constNames, Argument.isConst]

/-- A ground literal always has a number. -/
theorem atomOf_meets {E : GroundingError → Prop} {l : Literal} (hl : l.isGround = true)
    (ctx : String) : Meets E (fun _ => True) (atomOf ctx l) := by
  have hsome : constNames l.args ≠ none := fun hn =>
    Bool.false_ne_true ((constNames_eq_none.mp hn).symm.trans hl)
  obtain ⟨names, hnames⟩ := Option.ne_none_iff_exists'.mp hsome
  unfold atomOf
  rw [hnames]
  exact Meets.modifyGet

/-- The atom table refuses exactly the literals with a variable left, and it names the literal. -/
theorem atomOf_run_eq_error {ctx : String} {l : Literal} {g : Grounder} {e : GroundingError} :
    (atomOf ctx l).run g = .error e ↔ l.isGround = false ∧ e = .malformedLiteral l ctx := by
  cases hn : constNames l.args with
  | none =>
    have hrun : (atomOf ctx l).run g = .error (.malformedLiteral l ctx) := by
      unfold atomOf
      rw [hn]
      rfl
    have hg : l.isGround = false := constNames_eq_none.mp hn
    simp [hrun, hg, eq_comm]
  | some names =>
    have hg : l.isGround = true := by
      rw [Literal.isGround, ← Bool.not_eq_false, ← constNames_eq_none, hn]
      simp
    have hrun : (atomOf ctx l).run g =
        .ok ((g.table.intern ⟨l.pred, names⟩).1, { g with table := (g.table.intern ⟨l.pred, names⟩).2 }) := by
      unfold atomOf
      rw [hn]
      rfl
    simp [hrun, hg]

/-- Each instance of a closed quantification is closed and no deeper than its body. -/
theorem closed_of_mem_expand {pb : Problem} {vs : List Param} {body d : Condition}
    (hbody : body.BoundIn (vs.map Param.name)) (hd : d ∈ expand pb vs body) :
    d.Closed ∧ d.depth ≤ body.depth := by
  obtain ⟨t, ht, rfl⟩ := List.mem_map.mp hd
  have hinst : (body.bind vs t).Closed :=
    boundIn_bind_of_groundArgs hbody (groundArgs_of_mem_bindings ht)
  refine ⟨boundIn_simplify false _ hinst, ?_⟩
  calc ((body.bind vs t).simplify false).depth ≤ (body.bind vs t).depth := depth_simplify_le false _
    _ = body.depth := depth_subst _ _

/-- The formula of a closed condition, with fuel beyond its depth, reports no literal. -/
theorem formula_meets (pb : Problem) (ctx : String) :
    ∀ (fuel : Nat) (c : Condition), c.Closed → c.depth < fuel →
      Meets GroundingError.NotFromLiteral (fun _ => True) (formula pb ctx fuel c)
  | 0, _, _, hd => absurd hd (Nat.not_lt_zero _)
  | _ + 1, .lit l, hc, _ => by
      simp only [formula]
      exact (atomOf_meets (closed_lit_iff.mp hc) ctx).bind fun _ _ => Meets.pure trivial
  | n + 1, .and cs, hc, hd => by
      simp only [formula]
      refine Meets.map (Meets.mapM fun c hmem => formula_meets pb ctx n c (boundIn_and.mp hc c hmem) ?_)
        fun _ _ => trivial
      have hle := depth_le_depthAll hmem
      simp only [depth] at hd
      omega
  | n + 1, .or cs, hc, hd => by
      simp only [formula]
      refine Meets.map (Meets.mapM fun c hmem => formula_meets pb ctx n c (boundIn_or.mp hc c hmem) ?_)
        fun _ _ => trivial
      have hle := depth_le_depthAll hmem
      simp only [depth] at hd
      omega
  | n + 1, .quant q vs body, hc, hd => by
      simp only [formula]
      refine (Meets.mapM fun d hmem => ?_).bind fun _ _ => Meets.pure trivial
      obtain ⟨hclosed, hle⟩ := closed_of_mem_expand hc hmem
      refine formula_meets pb ctx n d hclosed ?_
      simp only [depth] at hd
      omega
  | _ + 1, .compare _, _, _ => Meets.throw trivial
  | _ + 1, .not _, _, _ => Meets.throw trivial
  | _ + 1, .when _ _, _, _ => Meets.throw trivial
  | _ + 1, .numEffect _, _, _ => Meets.throw trivial

theorem boundIn_of_mem_conjuncts {names : List String} {c d : Condition} (hc : c.BoundIn names)
    (hd : d ∈ conjuncts c) : d.BoundIn names := by
  unfold conjuncts at hd
  split at hd
  · exact boundIn_and.mp hc d hd
  · rw [List.mem_singleton.mp hd]
    exact hc

/-- The guard of a closed condition reports no literal. -/
theorem guard_meets (pb : Problem) (ctx : String) {c : Condition} (hc : c.Closed) :
    Meets GroundingError.NotFromLiteral (fun _ => True) (guard pb ctx c) := by
  have hs : (c.simplify false).Closed := boundIn_simplify false c hc
  unfold guard
  refine (Meets.foldlM (fun _ => True) trivial fun acc d hd _ => ?_).bind fun r _ => ?_
  · have hdc := boundIn_of_mem_conjuncts hs hd
    split
    · exact (atomOf_meets (closed_lit_iff.mp hdc) ctx).bind fun _ _ => Meets.pure trivial
    · exact (formula_meets pb ctx _ _ hdc (Nat.lt_succ_self _)).bind fun _ _ => Meets.pure trivial
  · obtain ⟨pos, neg, residual⟩ := r
    simp only
    exact Meets.ite (Meets.pure trivial) (Meets.ite (Meets.pure trivial) (Meets.pure trivial))

end Grounder

/-- The prerequisites recorded in the effect lists are closed. -/
def EffectLists.Closed (e : EffectLists) : Prop := ∀ x ∈ e.cond, x.1.Closed

theorem EffectLists.Closed.push {e : EffectLists} (he : e.Closed) {pre : Option Condition}
    (hpre : ∀ p, pre = some p → p.Closed) (a : AtomId) (isDel : Bool) :
    (e.push pre a isDel).Closed := by
  unfold EffectLists.push
  split
  · split <;> exact he
  · rename_i p
    split
    · -- recording under a known prerequisite keeps every prerequisite
      intro x hx
      obtain ⟨⟨q, ad, dl⟩, hy, rfl⟩ := List.mem_map.mp hx
      have hq := he _ hy
      dsimp only
      split <;> (try split) <;> exact hq
    · intro x hx
      rcases List.mem_append.mp hx with hx | hx
      · exact he x hx
      · rw [List.mem_singleton] at hx
        subst hx
        split <;> exact hpre p rfl

namespace Grounder

open GroundM Condition

/-! ## Effects and instances -/

/-- Collecting the effects of a closed effect under a closed prerequisite reports no literal and
records closed prerequisites only. -/
theorem collectEffects_meets (pb : Problem) (ctx : String) :
    ∀ (fuel : Nat) (c : Condition) (pre : Option Condition) (e : EffectLists), c.Closed →
      (∀ p, pre = some p → p.Closed) → e.Closed →
        Meets GroundingError.NotFromLiteral EffectLists.Closed (collectEffects pb ctx fuel c pre e)
  | 0, _, _, _, _, _, he => Meets.pure he
  | _ + 1, .lit l, _, _, hc, hpre, he => by
      simp only [collectEffects]
      exact (atomOf_meets (closed_lit_iff.mp hc) ctx).bind fun a _ =>
        Meets.pure (he.push hpre a l.negated)
  | n + 1, .and cs, pre, _, hc, hpre, he => by
      simp only [collectEffects]
      exact Meets.foldlM EffectLists.Closed he fun e' c hmem he' =>
        collectEffects_meets pb ctx n c pre e' (boundIn_and.mp hc c hmem) hpre he'
  | n + 1, .when p c, pre, e, hc, hpre, he => by
      simp only [collectEffects]
      refine collectEffects_meets pb ctx n c _ e hc.2 ?_ he
      -- the prerequisite conjoined with the enclosing one is closed
      intro p' hp'
      cases pre with
      | none =>
          cases hp'
          exact hc.1
      | some outer =>
          cases hp'
          exact boundIn_simplify false _ (boundIn_and.mpr (by simp [hpre outer rfl, hc.1]))
  | n + 1, .quant .all vs body, pre, _, hc, hpre, he => by
      simp only [collectEffects]
      exact Meets.foldlM EffectLists.Closed he fun e' d hmem he' =>
        collectEffects_meets pb ctx n d pre e' (closed_of_mem_expand hc hmem).1 hpre he'
  | _ + 1, .quant .any _ _, _, _, _, _, _ => Meets.throw trivial
  | _ + 1, .numEffect _, _, _, _, _, he => by
      simp only [collectEffects]
      exact Meets.modify.bind fun _ _ => Meets.pure he
  | _ + 1, .or _, _, _, _, _, _ => Meets.throw trivial
  | _ + 1, .not _, _, _, _, _, _ => Meets.throw trivial
  | _ + 1, .compare _, _, _, _, _, _ => Meets.throw trivial

/-- An instance of an operator bound in its parameters, with an object for each parameter,
reports no literal. -/
theorem action_meets (pb : Problem) {op : Operator} {args : List Argument}
    (hpre : op.pre.BoundIn (op.params.map Param.name))
    (heff : op.eff.BoundIn (op.params.map Param.name)) (hargs : GroundArgs op.params args) :
    Meets GroundingError.NotFromLiteral (fun _ => True) (action pb op args) := by
  have hpre' : (op.pre.bind op.params args).Closed := boundIn_bind_of_groundArgs hpre hargs
  have heff' : ((op.eff.bind op.params args).simplify false).Closed :=
    boundIn_simplify false _ (boundIn_bind_of_groundArgs heff hargs)
  unfold action
  refine (guard_meets pb op.name hpre').bind fun g _ => ?_
  split
  · refine (collectEffects_meets pb op.name _ _ none {} heff' (by simp)
      (by simp [EffectLists.Closed])).bind fun effs heffs => ?_
    refine (Meets.foldlM (fun _ => True) trivial fun acc x hx _ => ?_).bind fun _ _ => ?_
    · refine (guard_meets pb op.name (heffs x hx)).bind fun _ _ => ?_
      split
      · exact Meets.pure trivial
      · exact Meets.ite (Meets.pure trivial) (Meets.pure trivial)
    · exact Meets.pure trivial
  · exact Meets.pure trivial

/-- An instance of an axiom bound in its parameters, with an object for each parameter, reports
no literal. -/
theorem axiomInstance_meets (pb : Problem) {ax : Axiom} {args : List Argument}
    (hcond : ax.cond.BoundIn (ax.params.map Param.name)) (hargs : GroundArgs ax.params args) :
    Meets GroundingError.NotFromLiteral (fun _ => True) (axiomInstance pb ax args) := by
  have hcond' : (ax.cond.bind ax.params args).Closed := boundIn_bind_of_groundArgs hcond hargs
  have hhead : ({ pred := ax.pred.name, args := args } : Literal).isGround = true :=
    List.all_eq_true.mpr hargs.2
  unfold axiomInstance
  refine (guard_meets pb _ hcond').bind fun g _ => ?_
  split
  · exact (atomOf_meets hhead _).bind fun _ _ => Meets.pure trivial
  · exact Meets.pure trivial

theorem instantiateAll_meets {α β : Type} {E : GroundingError → Prop} (pb : Problem)
    (schemas : List α) (params : α → List Param) (inst : α → List Argument → GroundM (Option β))
    (h : ∀ s ∈ schemas, ∀ args, GroundArgs (params s) args → Meets E (fun _ => True) (inst s args)) :
    Meets E (fun _ => True) (instantiateAll pb schemas params inst) := by
  unfold instantiateAll
  refine Meets.foldlM (fun _ => True) trivial fun _ s hs _ => ?_
  refine Meets.foldlM (fun _ => True) trivial fun _ args hargs _ => ?_
  refine (h s hs args (groundArgs_of_mem_bindings hargs)).bind fun b _ => ?_
  split <;> exact Meets.pure trivial

end Grounder

/-! ## Strata -/

/-- Stratification fails only on a derived predicate that depends negatively on itself. -/
theorem raiseLevels_error {t : AtomTable} {top : Nat} {lv : Levels} {axs : List GroundAxiom}
    {e : GroundingError} (h : raiseLevels t top lv axs = .error e) :
    ∃ p, e = .notStratifiable p := by
  unfold raiseLevels at h
  refine foldlM_eq_error (fun e => ∃ p, e = .notStratifiable p) (fun b ax e' he => ?_) h
  obtain ⟨lv, changed⟩ := b
  simp only at he
  split at he
  · split at he
    · exact ⟨_, (Except.error.inj he).symm⟩
    · exact absurd he except_pure_ne_error
  · exact absurd he except_pure_ne_error

theorem settleLevels_error {t : AtomTable} {top : Nat} {axs : List GroundAxiom} :
    ∀ {fuel : Nat} {lv : Levels} {e : GroundingError}, settleLevels t top axs fuel lv = .error e →
      ∃ p, e = .notStratifiable p
  | 0, _, _, h => absurd h except_pure_ne_error
  | _ + 1, lv, _, h => by
      simp only [settleLevels, except_bind_eq_error] at h
      rcases h with h | ⟨⟨lv', changed⟩, _, h⟩
      · exact raiseLevels_error h
      · split at h
        · exact settleLevels_error h
        · exact absurd h except_pure_ne_error

theorem stratify_error {t : AtomTable} {axs : List GroundAxiom} {e : GroundingError}
    (h : stratify t axs = .error e) : ∃ p, e = .notStratifiable p := by
  simp only [stratify, except_bind_eq_error] at h
  rcases h with h | ⟨_, _, h⟩
  · exact settleLevels_error h
  · exact absurd h except_pure_ne_error

namespace Grounder

open GroundM Condition

/-- Finishing a problem with ground initial atoms and closed goals reports no literal. -/
theorem finish_meets {pb : Problem} (hinit : ∀ l ∈ pb.init, l.isGround = true)
    (hgoals : ∀ g ∈ pb.goals, g.Closed) (actions : List Action) (axioms : List GroundAxiom) :
    Meets GroundingError.NotFromLiteral (fun _ => True) (finish pb actions axioms) := by
  unfold finish
  refine (Meets.mapM fun l hl => atomOf_meets (hinit l hl) "init").bind fun _ _ => ?_
  refine (guard_meets pb "goal" (boundIn_and.mpr hgoals)).bind fun _ _ => ?_
  refine Meets.get.bind fun g _ => ?_
  refine (Meets.lift fun e he => ?_).bind fun r _ => ?_
  · obtain ⟨p, rfl⟩ := stratify_error he
    trivial
  · obtain ⟨axioms, strata⟩ := r
    exact Meets.pure trivial

/-! ## The two strategies -/

theorem groundNaive_meets {pb : Problem} (hc : pb.Closed) :
    Meets GroundingError.NotFromLiteral (fun _ => True) (groundNaive pb) := by
  unfold groundNaive
  refine (Meets.forIn fun p _ _ => ?_).bind fun _ _ => ?_
  · refine (Meets.forIn fun args _ _ => ?_).bind fun _ _ => Meets.pure trivial
    exact Meets.modifyGet.bind fun _ _ => Meets.pure trivial
  · refine (instantiateAll_meets pb _ _ _ fun op hop args hargs =>
      action_meets pb (hc.operators_bound op hop).1 (hc.operators_bound op hop).2 hargs).bind
        fun _ _ => ?_
    refine (instantiateAll_meets pb _ _ _ fun ax hax args hargs =>
      axiomInstance_meets pb (hc.axioms_bound ax hax) hargs).bind fun _ _ => ?_
    exact finish_meets hc.init_ground hc.goals_closed _ _

/-- Extending a partial binding to match a literal keeps its length. -/
theorem length_of_unify {pb : Problem} {params : List Param} {l : Literal} {atom : GroundAtom}
    {b b' : PartialBinding} (h : unify pb params l atom b = some b') : b'.length = b.length := by
  unfold unify at h
  split at h
  · cases h
  · refine option_foldlM_invariant (fun b' : PartialBinding => b'.length = b.length) ?_ rfl h
    intro b0 x b1 hb0 hstep
    obtain ⟨arg, value⟩ := x
    unfold unifyArg at hstep
    repeat' split at hstep
    all_goals (cases hstep <;> simp [hb0])

theorem length_of_mem_joinLiterals {pb : Problem} {params : List Param} {r : Reached} :
    ∀ {lits : List (Literal × LayerPart)} {b b' : PartialBinding},
      b' ∈ joinLiterals pb params r lits b → b'.length = b.length
  | [], _, _, h => by
      rw [joinLiterals, List.mem_singleton] at h
      rw [h]
  | (l, p) :: rest, b, b', h => by
      simp only [joinLiterals, List.mem_flatMap] at h
      obtain ⟨atom, -, hmem⟩ := h
      split at hmem
      · rename_i b'' hu
        rw [length_of_mem_joinLiterals hmem, length_of_unify hu]
      · cases hmem

theorem groundArgs_of_mem_completeBindings {pb : Problem} {params : List Param}
    {b : PartialBinding} {args : List Argument} (hb : b.length = params.length)
    (h : args ∈ completeBindings pb params b) : GroundArgs params args := by
  have hp := (mem_cartesian _ _).mp h
  refine ⟨by simpa [hb] using hp.length_eq, ?_⟩
  intro a ha
  obtain ⟨l, hl, hal⟩ := hp.exists_mem a ha
  obtain ⟨⟨p, v⟩, -, rfl⟩ := List.mem_map.mp hl
  cases v with
  | some name =>
      obtain ⟨o, -, rfl⟩ := List.mem_map.mp hal
      rfl
  | none =>
      obtain ⟨o, -, rfl⟩ := List.mem_map.mp hal
      rfl

/-- The bindings found in a round are objects, one for each parameter. -/
theorem groundArgs_of_mem_newBindings {pb : Problem} {params : List Param} {c : Condition}
    {r : Reached} {first : Bool} {args : List Argument}
    (h : args ∈ newBindings pb params c r first) : GroundArgs params args := by
  have hempty : (params.map fun _ => (none : Option String)).length = params.length :=
    List.length_map _
  unfold newBindings at h
  simp only at h
  split at h
  · split at h
    · exact groundArgs_of_mem_completeBindings hempty h
    · cases h
  · obtain ⟨k, -, hk⟩ := List.mem_flatMap.mp h
    obtain ⟨b, hb, hargs⟩ := List.mem_flatMap.mp hk
    exact groundArgs_of_mem_completeBindings ((length_of_mem_joinLiterals hb).trans hempty) hargs

theorem reach_meets {E : GroundingError → Prop} (f : Frontier) (a : AtomId) :
    Meets E (fun _ => True) (reach f a) := by
  unfold reach
  exact Meets.ite (Meets.pure trivial) (Meets.get.bind fun _ _ => Meets.pure trivial)

theorem instantiateNew_meets {β : Type} {E : GroundingError → Prop} {i : Nat}
    {bindings : List (List Argument)} {inst : List Argument → GroundM (Option β)}
    {seen : List (Nat × List String)} {pending : List β}
    (h : ∀ args ∈ bindings, Meets E (fun _ => True) (inst args)) :
    Meets E (fun _ => True) (instantiateNew i bindings inst seen pending) := by
  unfold instantiateNew
  refine Meets.foldlM (fun _ => True) trivial fun acc args hargs _ => ?_
  simp only
  refine Meets.ite (Meets.pure trivial) ((h args hargs).bind fun b _ => ?_)
  split <;> exact Meets.pure trivial

theorem reachRound_meets {pb : Problem} (hc : pb.Closed) (first : Bool) (f : Frontier) :
    Meets GroundingError.NotFromLiteral (fun _ => True) (reachRound pb first f) := by
  unfold reachRound
  refine (Meets.foldlM (fun _ => True) trivial fun acc x hx _ => ?_).bind fun r _ => ?_
  · obtain ⟨op, i⟩ := x
    have hop := (hc.operators_bound op (List.fst_mem_of_mem_zipIdx hx))
    exact instantiateNew_meets fun args hargs =>
      action_meets pb hop.1 hop.2 (groundArgs_of_mem_newBindings hargs)
  obtain ⟨seenActions, pendingActions⟩ := r
  refine (Meets.foldlM (fun _ => True) trivial fun acc x hx _ => ?_).bind fun r _ => ?_
  · obtain ⟨ax, i⟩ := x
    have hax := hc.axioms_bound ax (List.fst_mem_of_mem_zipIdx hx)
    exact instantiateNew_meets fun args hargs =>
      axiomInstance_meets pb hax (groundArgs_of_mem_newBindings hargs)
  obtain ⟨seenAxioms, pendingAxioms⟩ := r
  exact Meets.foldlM (fun _ => True) trivial fun acc a _ _ =>
    (reach_meets _ _).bind fun r _ => Meets.pure trivial

theorem reachRounds_meets {pb : Problem} (hc : pb.Closed) :
    ∀ (fuel : Nat) (first : Bool) (f : Frontier),
      Meets GroundingError.NotFromLiteral (fun _ => True) (reachRounds pb fuel first f)
  | 0, _, _ => Meets.pure trivial
  | n + 1, first, f => by
      simp only [reachRounds]
      refine (reachRound_meets hc first f).bind fun r _ => ?_
      obtain ⟨f', count⟩ := r
      exact Meets.ite (Meets.pure trivial) (reachRounds_meets hc n false f')

theorem groundReachable_meets {pb : Problem} (hc : pb.Closed) :
    Meets GroundingError.NotFromLiteral (fun _ => True) (groundReachable pb) := by
  unfold groundReachable
  refine (Meets.foldlM (fun _ => True) trivial fun f l hl _ => ?_).bind fun f _ => ?_
  · refine (atomOf_meets (hc.init_ground l hl) "init").bind fun a _ => ?_
    exact (reach_meets f a).bind fun r _ => Meets.pure trivial
  · exact (reachRounds_meets hc _ true f).bind fun _ _ =>
      finish_meets hc.init_ground hc.goals_closed _ _

end Grounder

/-- Grounding a closed problem, with either strategy, fails on no literal. -/
theorem Problem.Closed.ground_error {pb : Problem} (hc : pb.Closed)
    (strategy : GroundingStrategy) {e : GroundingError} (h : pb.ground strategy = .error e) :
    e.NotFromLiteral := by
  cases strategy with
  | naive => exact (Grounder.groundNaive_meets hc).run'_error h
  | relaxedGraph => exact (Grounder.groundReachable_meets hc).run'_error h

end Pddl
