import Pddl.Proofs.Ground.Instances
import Pddl.Proofs.Ground.Failures
import Pddl.Proofs.Problem.Build
import Pddl.Proofs.Condition.Kinds
import Pddl.Proofs.Combinations.Enumeration
/-!
# The atoms a problem can have

Instantiation makes atoms out of the problem's instance literals only
(`Problem.instanceLiterals`): it binds their parameters to objects and expands quantifications
over objects. So every atom it makes has the predicate and the number of arguments of an instance
literal, and its arguments are object names or constants of those literals (`Problem.atomNames`).
There are `atomBound` such atoms at most (`length_le_atomBound`): the universe of the problem
lists them all, and its length is the bound.

Every literal of the problem is in the universe, and binding parameters to objects, negation
normal form and the expansion of quantifications over objects keep literals there. Interning then
only ever adds atoms of the universe to the table, each once, and every run of the instantiator
keeps the table inside the universe (`TableInUniverse`, judged by `GroundM.Keeps`). Nothing is
assumed of the problem: its predicates need not be declared, nor its objects.

Beside it, the numbers instantiation hands out are numbers of the table it leaves: the atoms an
action adds and the atom an axiom derives (`action_addsIn`, `axiomInstance_atomIn`).
-/

namespace Pddl

theorem constNames?_eq_some : ∀ {args : List Argument} {names : List String},
    constNames? args = some names →
      names.length = args.length ∧ ∀ n ∈ names, ∃ o, Argument.const o ∈ args ∧ o.name = n
  | [], _, h => by
      cases h
      simp
  | .const o :: args, names, h => by
      obtain ⟨rest, hrest, rfl⟩ := Option.map_eq_some_iff.mp h
      obtain ⟨hlen, hmem⟩ := constNames?_eq_some hrest
      refine ⟨by simp [hlen], fun n hn => ?_⟩
      rcases List.mem_cons.mp hn with rfl | hn
      · exact ⟨o, .head _, rfl⟩
      · obtain ⟨o', ho', rfl⟩ := hmem n hn
        exact ⟨o', .tail _ ho', rfl⟩
  | .var _ :: _, _, h => by cases h

namespace Problem

/-! ## The universe of atoms -/

/-- The problem has an instance literal with this predicate and this number of arguments. -/
def Signature (pb : Problem) (pred : String) (arity : Nat) : Prop :=
  ∃ l ∈ pb.instanceLiterals, l.pred = pred ∧ l.args.length = arity

/-- An atom instantiation can make: the predicate and the number of arguments of an instance
literal, over atom names. -/
def UniverseAtom (pb : Problem) (a : GroundAtom) : Prop :=
  pb.Signature a.pred a.args.length ∧ ∀ n ∈ a.args, n ∈ pb.atomNames

/-- For each instance literal, every atom of its predicate over as many atom names as it has
arguments. -/
def atomUniverse (pb : Problem) : List GroundAtom :=
  pb.instanceLiterals.flatMap fun l =>
    (cartesian (List.replicate l.args.length pb.atomNames)).map (GroundAtom.mk l.pred)

theorem picks_replicate {α : Type} {xs : List α} :
    ∀ {n : Nat} {t : List α}, Picks t (List.replicate n xs) ↔ t.length = n ∧ ∀ x ∈ t, x ∈ xs
  | 0, t => by
      constructor
      · rintro ⟨⟩
        simp
      · rintro ⟨hlen, -⟩
        rw [List.length_eq_zero_iff.mp hlen]
        exact .nil
  | n + 1, t => by
      constructor
      · rintro (_ | ⟨hx, hrest⟩)
        obtain ⟨hlen, hall⟩ := picks_replicate.mp hrest
        exact ⟨by simp [hlen], by simpa [hx] using hall⟩
      · rintro ⟨hlen, hall⟩
        cases t with
        | nil => cases hlen
        | cons x t =>
            exact .cons (hall x (.head _)) (picks_replicate.mpr
              ⟨Nat.succ.inj hlen, fun y hy => hall y (.tail _ hy)⟩)

/-- The universe has `atomBound` atoms. -/
theorem length_atomUniverse (pb : Problem) : pb.atomUniverse.length = Grounder.atomBound pb := by
  have hlen : ∀ l : Literal,
      ((cartesian (List.replicate l.args.length pb.atomNames)).map (GroundAtom.mk l.pred)).length =
        pb.atomNames.length ^ l.args.length := by
    intro l
    rw [List.length_map, length_cartesian, List.map_replicate, List.prod_replicate]
  simp only [atomUniverse, List.length_flatMap, hlen, Grounder.atomBound, Nat.pow_eq, List.sum_eq_foldr]

theorem mem_atomUniverse {pb : Problem} {a : GroundAtom} (ha : pb.UniverseAtom a) :
    a ∈ pb.atomUniverse := by
  obtain ⟨⟨l, hl, hpred, hlen⟩, hnames⟩ := ha
  simp only [atomUniverse, List.mem_flatMap, List.mem_map]
  refine ⟨l, hl, a.args, (mem_cartesian _ _).mpr (picks_replicate.mpr ⟨hlen.symm, hnames⟩), ?_⟩
  rw [hpred]

/-- Distinct atoms of the universe are at most `atomBound`. -/
theorem length_le_atomBound {pb : Problem} {as : List GroundAtom} (hnd : as.Nodup)
    (has : ∀ a ∈ as, pb.UniverseAtom a) : as.length ≤ Grounder.atomBound pb := by
  rw [← length_atomUniverse]
  exact (hnd.subperm fun a ha => mem_atomUniverse (has a ha)).length_le

/-! ## Literals of the universe -/

theorem mem_atomNames_of_object {pb : Problem} {n : String} (h : n ∈ pb.objects.map (·.name)) :
    n ∈ pb.atomNames :=
  List.mem_append_left _ h

/-- A literal with the predicate and the number of arguments of an instance literal, whose
constants are atom names. -/
def UniverseLiteral (pb : Problem) (l : Literal) : Prop :=
  pb.Signature l.pred l.args.length ∧ ∀ o, Argument.const o ∈ l.args → o.name ∈ pb.atomNames

/-- Every instance literal is in the universe. -/
theorem universeLiteral_of_mem {pb : Problem} {l : Literal} (hl : l ∈ pb.instanceLiterals) :
    pb.UniverseLiteral l := by
  refine ⟨⟨l, hl, rfl, rfl⟩, fun o ho => List.mem_append_right _ ?_⟩
  exact List.mem_flatMap.mpr ⟨l, hl, List.mem_filterMap.mpr ⟨_, ho, rfl⟩⟩

/-- The atom of a ground literal of the universe is in the universe. -/
theorem UniverseLiteral.atom {pb : Problem} {l : Literal} (hl : pb.UniverseLiteral l)
    {names : List String} (hnames : constNames? l.args = some names) :
    pb.UniverseAtom ⟨l.pred, names⟩ := by
  obtain ⟨⟨l', hl', hpred, hlen⟩, hobj⟩ := hl
  obtain ⟨hlen', hmem⟩ := constNames?_eq_some hnames
  refine ⟨⟨l', hl', hpred, hlen.trans hlen'.symm⟩, fun n hn => ?_⟩
  obtain ⟨o, ho, rfl⟩ := hmem n hn
  exact hobj o ho

theorem UniverseLiteral.negate {pb : Problem} {l : Literal} (hl : pb.UniverseLiteral l) :
    pb.UniverseLiteral l.negate := hl

/-- A substitution whose values are variables or declared objects. -/
def ObjectSubst (pb : Problem) (σ : Subst) : Prop :=
  ∀ e ∈ σ, ∀ o, e.2 = .const o → o.name ∈ pb.objects.map (·.name)

theorem ObjectSubst.without {pb : Problem} {σ : Subst} (hσ : pb.ObjectSubst σ)
    (names : List String) : pb.ObjectSubst (σ.without names) :=
  fun e he => hσ e (mem_without.mp he).1

theorem UniverseLiteral.subst {pb : Problem} {l : Literal} (hl : pb.UniverseLiteral l)
    {σ : Subst} (hσ : pb.ObjectSubst σ) : pb.UniverseLiteral (l.subst σ) := by
  obtain ⟨hsig, hobj⟩ := hl
  refine ⟨by simpa [Literal.subst] using hsig, fun o ho => ?_⟩
  obtain ⟨a, ha, hsub⟩ := List.mem_map.mp ho
  cases a with
  | const o' =>
      cases hsub
      exact hobj o ha
  | var p =>
      simp only [Argument.subst] at hsub
      split at hsub
      · rename_i x v hfind
        exact mem_atomNames_of_object (hσ (x, v) (List.mem_of_find?_eq_some hfind) o hsub)
      · cases hsub

end Problem

namespace Condition

/-- Every literal of the condition is in the universe of the problem. -/
def InUniverse (pb : Problem) (c : Condition) : Prop :=
  c.Everywhere fun n => ∀ l, n = .lit l → pb.UniverseLiteral l

section InUniverse

variable {pb : Problem}

theorem inUniverse_build_iff (k : Junction) (cs : List Condition) :
    (k.build cs).InUniverse pb ↔ ∀ c ∈ cs, c.InUniverse pb :=
  everywhere_build_iff (fun k _ l h => by cases k <;> cases h) k cs

theorem inUniverse_tautology : tautology.InUniverse pb :=
  (inUniverse_build_iff .conj []).mpr (List.forall_mem_nil _)

theorem inUniverse_contradiction : contradiction.InUniverse pb :=
  (inUniverse_build_iff .disj []).mpr (List.forall_mem_nil _)

mutual

/-- A condition whose literals are all in the universe is in the universe. -/
theorem inUniverse_of_literals :
    ∀ {c : Condition}, (∀ l ∈ c.literals, pb.UniverseLiteral l) → c.InUniverse pb
  | .lit l, h => by
      rintro _ ⟨⟩
      exact h l (by simp [literals])
  | .and _, h => ⟨nofun, inUniverseAll_of_literalsAll h⟩
  | .or _, h => ⟨nofun, inUniverseAll_of_literalsAll h⟩
  | .not _, h => ⟨nofun, inUniverse_of_literals h⟩
  | .quant .., h => ⟨nofun, inUniverse_of_literals h⟩
  | .when p c, h =>
      ⟨nofun, inUniverse_of_literals fun l hl => h l (List.mem_append_left _ hl),
        inUniverse_of_literals fun l hl => h l (List.mem_append_right _ hl)⟩
  | .numEffect _, _ => nofun
  | .compare _, _ => nofun

theorem inUniverseAll_of_literalsAll :
    ∀ {cs : List Condition}, (∀ l ∈ literalsAll cs, pb.UniverseLiteral l) →
      EverywhereAll (fun n => ∀ l, n = .lit l → pb.UniverseLiteral l) cs
  | [], _ => trivial
  | _ :: _, h => ⟨inUniverse_of_literals fun l hl => h l (List.mem_append_left _ hl),
      inUniverseAll_of_literalsAll fun l hl => h l (List.mem_append_right _ hl)⟩

end

mutual

/-- Binding variables to objects keeps the literals in the universe. -/
theorem inUniverse_subst {σ : Subst} (hσ : pb.ObjectSubst σ) :
    ∀ {c : Condition}, c.InUniverse pb → (c.subst σ).InUniverse pb
  | .lit l, h => by
      rintro _ ⟨⟩
      exact (h l rfl).subst hσ
  | .and _, h => ⟨nofun, inUniverseAll_substAll hσ h.2⟩
  | .or _, h => ⟨nofun, inUniverseAll_substAll hσ h.2⟩
  | .not _, h => ⟨nofun, inUniverse_subst hσ h.2⟩
  | .quant .., h => ⟨nofun, inUniverse_subst (hσ.without _) h.2⟩
  | .when .., h => ⟨nofun, inUniverse_subst hσ h.2.1, inUniverse_subst hσ h.2.2⟩
  | .numEffect _, _ => nofun
  | .compare _, _ => nofun

theorem inUniverseAll_substAll {σ : Subst} (hσ : pb.ObjectSubst σ) :
    ∀ {cs : List Condition}, EverywhereAll (fun n => ∀ l, n = .lit l → pb.UniverseLiteral l) cs →
      EverywhereAll (fun n => ∀ l, n = .lit l → pb.UniverseLiteral l) (substAll σ cs)
  | [], _ => trivial
  | _ :: _, h => ⟨inUniverse_subst hσ h.1, inUniverseAll_substAll hσ h.2⟩

end

mutual

/-- Negation normal form keeps the literals in the universe: it negates them or drops them. -/
theorem inUniverse_simplify :
    ∀ (neg : Bool) {c : Condition}, c.InUniverse pb → (c.simplify neg).InUniverse pb
  | neg, .lit l, h => by
      have hl : pb.UniverseLiteral (if neg then l.negate else l) := by
        split
        · exact (h l rfl).negate
        · exact h l rfl
      simp only [simplify]
      split
      · exact inUniverse_tautology
      · exact inUniverse_contradiction
      · rintro _ ⟨⟩
        exact hl
  | neg, .and cs, h => by
      simp only [simplify]
      exact Junction.normalize_of_forall inUniverse_build_iff
        (everywhereAll_iff.mp (inUniverseAll_simplifyAll neg h.2))
  | neg, .or cs, h => by
      simp only [simplify]
      exact Junction.normalize_of_forall inUniverse_build_iff
        (everywhereAll_iff.mp (inUniverseAll_simplifyAll neg h.2))
  | neg, .not _, h => inUniverse_simplify (!neg) h.2
  | neg, .quant q vs c, h => by
      have hc := inUniverse_simplify neg h.2
      rw [simplify_quant_eq]
      generalize (if neg = true then q.dual else q) = q'
      split
      · exact hc
      · exact ⟨nofun, hc⟩
  | _, .when p c, h => by
      have hp := inUniverse_simplify false h.2.1
      have hc := inUniverse_simplify false h.2.2
      simp only [simplify]
      split
      · exact inUniverse_tautology
      · split
        · exact hc
        · exact ⟨nofun, hp, hc⟩
  | _, .numEffect _, _ => nofun
  | neg, .compare c, _ => by
      simp only [simplify]
      split
      · exact inUniverse_tautology
      · exact inUniverse_contradiction
      · exact nofun

theorem inUniverseAll_simplifyAll (neg : Bool) :
    ∀ {cs : List Condition}, EverywhereAll (fun n => ∀ l, n = .lit l → pb.UniverseLiteral l) cs →
      EverywhereAll (fun n => ∀ l, n = .lit l → pb.UniverseLiteral l) (simplifyAll neg cs)
  | [], _ => trivial
  | _ :: _, h => ⟨inUniverse_simplify neg h.1, inUniverseAll_simplifyAll neg h.2⟩

end

theorem inUniverse_of_mem_and {cs : List Condition} (h : (Condition.and cs).InUniverse pb)
    {c : Condition} (hc : c ∈ cs) : c.InUniverse pb :=
  everywhereAll_iff.mp h.2 c hc

theorem inUniverse_of_mem_or {cs : List Condition} (h : (Condition.or cs).InUniverse pb)
    {c : Condition} (hc : c ∈ cs) : c.InUniverse pb :=
  everywhereAll_iff.mp h.2 c hc

theorem inUniverse_of_mem_conjuncts {c d : Condition} (h : c.InUniverse pb)
    (hd : d ∈ Grounder.conjuncts c) : d.InUniverse pb := by
  cases c with
  | and cs => exact inUniverse_of_mem_and h hd
  | _ =>
      simp only [Grounder.conjuncts, List.mem_singleton] at hd
      exact hd ▸ h

end InUniverse

end Condition

/-! ## Objects as arguments -/

namespace Problem

/-- Arguments whose constants are declared objects. -/
def ObjectArgs (pb : Problem) (args : List Argument) : Prop :=
  ∀ o, Argument.const o ∈ args → o.name ∈ pb.objects.map (·.name)

theorem ObjectArgs.ofLists {pb : Problem} {args : List Argument} (h : pb.ObjectArgs args)
    (vars : List Param) : pb.ObjectSubst (Subst.ofLists vars args) :=
  fun _ he o ho => h o (ho ▸ (List.of_mem_zip he).2)

theorem objectArgs_of_picks {pb : Problem} {t : List Argument} {ls : List (List Argument)}
    (hp : Picks t ls) (hls : ∀ l ∈ ls, ∀ o, Argument.const o ∈ l → o ∈ pb.objects) :
    pb.ObjectArgs t := by
  intro o ho
  obtain ⟨l, hl, hol⟩ := hp.exists_mem _ ho
  exact List.mem_map_of_mem (hls l hl o hol)

theorem objectArgs_of_mem_bindings {pb : Problem} {vars : List Param} {t : List Argument}
    (h : t ∈ pb.bindings vars) : pb.ObjectArgs t := by
  refine objectArgs_of_picks ((mem_cartesian _ _).mp h) fun l hl o ho => ?_
  obtain ⟨v, -, rfl⟩ := List.mem_map.mp hl
  obtain ⟨o', ho', heq⟩ := List.mem_map.mp ho
  cases heq
  exact List.mem_of_mem_filter ho'

/-- A completed binding has an argument per parameter, each a declared object. -/
theorem objectArgs_of_mem_completeBindings {pb : Problem} {params : List Param}
    {b : PartialBinding} (hb : b.length = params.length) {args : List Argument}
    (h : args ∈ completeBindings pb params b) :
    args.length = params.length ∧ pb.ObjectArgs args := by
  have hp := (mem_cartesian _ _).mp h
  refine ⟨by simpa [hb] using hp.length_eq, objectArgs_of_picks hp fun l hl o ho => ?_⟩
  obtain ⟨⟨p, v⟩, -, rfl⟩ := List.mem_map.mp hl
  cases v with
  | some name =>
      obtain ⟨o', ho', heq⟩ := List.mem_map.mp ho
      cases heq
      exact (findObject?_eq_some (Option.mem_toList.mp ho')).1
  | none =>
      obtain ⟨o', ho', heq⟩ := List.mem_map.mp ho
      cases heq
      exact List.mem_of_mem_filter ho'

theorem objectArgs_of_mem_newBindings {pb : Problem} {params : List Param} {c : Condition}
    {r : Reached} {first : Bool} {args : List Argument}
    (h : args ∈ newBindings pb params c r first) :
    args.length = params.length ∧ pb.ObjectArgs args := by
  have hempty : (params.map fun _ => (none : Option String)).length = params.length := by simp
  unfold newBindings at h
  simp only at h
  split at h
  · split at h
    · exact objectArgs_of_mem_completeBindings hempty h
    · cases h
  · obtain ⟨k, -, hk⟩ := List.mem_flatMap.mp h
    obtain ⟨b, hb, hargs⟩ := List.mem_flatMap.mp hk
    exact objectArgs_of_mem_completeBindings ((Grounder.length_of_mem_joinLiterals hb).trans hempty)
      hargs

/-- The head of an axiom over objects, one for each parameter, is in the universe. -/
theorem universeLiteral_head {pb : Problem} {ax : Axiom} (hsig : pb.Signature ax.pred.name ax.params.length)
    {args : List Argument} (hlen : args.length = ax.params.length) (hargs : pb.ObjectArgs args) :
    pb.UniverseLiteral { pred := ax.pred.name, args := args } :=
  ⟨hlen ▸ hsig, fun o ho => mem_atomNames_of_object (hargs o ho)⟩

/-! ## The literals of the problem are in the universe -/

theorem operator_inUniverse {pb : Problem} {op : Operator} (hop : op ∈ pb.operators) :
    op.pre.InUniverse pb ∧ op.eff.InUniverse pb := by
  have hmem : ∀ l ∈ op.pre.literals ++ op.eff.literals, pb.UniverseLiteral l := fun l hl =>
    universeLiteral_of_mem (by
      simp only [instanceLiterals, List.mem_append, List.mem_flatMap]
      exact .inl (.inr ⟨op, hop, List.mem_append.mp hl⟩))
  exact ⟨Condition.inUniverse_of_literals fun l hl => hmem l (List.mem_append_left _ hl),
    Condition.inUniverse_of_literals fun l hl => hmem l (List.mem_append_right _ hl)⟩

theorem axiom_inUniverse {pb : Problem} {ax : Axiom} (hax : ax ∈ pb.axioms) :
    ax.cond.InUniverse pb ∧ pb.Signature ax.pred.name ax.params.length := by
  have hmem : ∀ l ∈ (⟨ax.pred.name, ax.params.map .var, false⟩ : Literal) :: ax.cond.literals,
      l ∈ pb.instanceLiterals := fun l hl => by
    simp only [instanceLiterals, List.mem_append, List.mem_flatMap]
    exact .inr ⟨ax, hax, hl⟩
  refine ⟨Condition.inUniverse_of_literals fun l hl => universeLiteral_of_mem (hmem l (.tail _ hl)),
    ⟨_, hmem _ (.head _), rfl, by simp⟩⟩

end Problem

theorem Condition.inUniverse_bind {pb : Problem} {c : Condition} (hc : c.InUniverse pb)
    {vars : List Param} {args : List Argument} (hargs : pb.ObjectArgs args) :
    (c.bind vars args).InUniverse pb :=
  inUniverse_subst (hargs.ofLists vars) hc

theorem Condition.inUniverse_of_mem_expand {pb : Problem} {vs : List Param} {body d : Condition}
    (hbody : body.InUniverse pb) (hd : d ∈ Grounder.expand pb vs body) : d.InUniverse pb := by
  obtain ⟨t, ht, rfl⟩ := List.mem_map.mp hd
  exact inUniverse_simplify false (inUniverse_bind hbody (Problem.objectArgs_of_mem_bindings ht))

/-- The table numbers atoms of the universe only, each once. -/
def Problem.TableInUniverse (pb : Problem) (T : AtomTable) : Prop :=
  T.atoms.Nodup ∧ ∀ a ∈ T.atoms, pb.UniverseAtom a

/-! ## Runs that keep the table in the universe -/

namespace GroundM

variable {α β : Type} {I : AtomTable → Prop}

/-- Every successful run of `x`, from a grounder whose table satisfies `I`, leaves a table that
satisfies `I` and returns a value satisfying `P`. -/
def Keeps (I : AtomTable → Prop) (P : α → Prop) (x : GroundM α) : Prop :=
  ∀ g a g', I g.table → x.run g = .ok (a, g') → I g'.table ∧ P a

theorem Keeps.pure {P : α → Prop} {a : α} (h : P a) : Keeps I P (Pure.pure a) := by
  intro g b g' hI hrun
  cases hrun
  exact ⟨hI, h⟩

theorem Keeps.bind {Q : α → Prop} {P : β → Prop} {x : GroundM α} {f : α → GroundM β}
    (hx : Keeps I Q x) (hf : ∀ a, Q a → Keeps I P (f a)) : Keeps I P (x >>= f) := by
  intro g b g₂ hI hrun
  rw [StateT.run_bind] at hrun
  cases hx' : x.run g with
  | error e =>
      rw [hx'] at hrun
      cases hrun
  | ok p =>
      obtain ⟨a, g₁⟩ := p
      rw [hx'] at hrun
      obtain ⟨hI₁, hq⟩ := hx g a g₁ hI hx'
      exact hf a hq g₁ b g₂ hI₁ hrun

theorem Keeps.map {Q : α → Prop} {P : β → Prop} {x : GroundM α} {f : α → β}
    (hx : Keeps I Q x) (hf : ∀ a, Q a → P (f a)) : Keeps I P (f <$> x) := by
  rw [map_eq_pure_bind]
  exact hx.bind fun a ha => Keeps.pure (hf a ha)

theorem Keeps.throw {P : α → Prop} {e : GroundingError} : Keeps I P (MonadExcept.throw e) := by
  intro g a g' _ hrun
  cases hrun

theorem Keeps.ite {P : α → Prop} {c : Prop} [Decidable c] {x y : GroundM α} (hx : Keeps I P x)
    (hy : Keeps I P y) : Keeps I P (if c then x else y) := by
  split
  · exact hx
  · exact hy

/-- Reading the grounder keeps its table. -/
theorem Keeps.get : Keeps I (fun _ => True) (MonadState.get : GroundM Grounder) := by
  intro g a g' hI hrun
  cases hrun
  exact ⟨hI, trivial⟩

theorem Keeps.modify {f : Grounder → Grounder} (hf : ∀ g, (f g).table = g.table) :
    Keeps I (fun _ => True) (modify f : GroundM Unit) := by
  intro g a g' hI hrun
  cases hrun
  exact ⟨(hf g).symm ▸ hI, trivial⟩

/-- A fold keeps the table invariant and an invariant of its accumulator that each step keeps. -/
theorem Keeps.foldlM {f : β → α → GroundM β} (P : β → Prop) :
    ∀ {xs : List α} {init : β}, P init → (∀ b x, x ∈ xs → P b → Keeps I P (f b x)) →
      Keeps I P (xs.foldlM f init)
  | [], _, h0, _ => Keeps.pure h0
  | x :: xs, init, h0, hf => by
      rw [List.foldlM_cons]
      exact (hf init x (.head _) h0).bind fun b hb =>
        Keeps.foldlM P hb fun b' y hy => hf b' y (.tail _ hy)

theorem Keeps.mapM {f : α → GroundM β} :
    ∀ {xs : List α}, (∀ x ∈ xs, Keeps I (fun _ => True) (f x)) →
      Keeps I (fun _ => True) (xs.mapM f)
  | [], _ => by
      rw [List.mapM_nil]
      exact Keeps.pure trivial
  | x :: xs, h => by
      rw [List.mapM_cons]
      exact (h x (.head _)).bind fun _ _ =>
        (Keeps.mapM fun y hy => h y (.tail _ hy)).bind fun _ _ => Keeps.pure trivial

end GroundM

namespace Grounder

open GroundM Condition

variable {pb : Problem}

theorem intern_keeps {a : GroundAtom} (ha : pb.UniverseAtom a) :
    Keeps pb.TableInUniverse (fun _ => True) (intern a) := by
  intro g i g' hI hrun
  simp only [intern, StateT.run_modifyGet] at hrun
  cases hrun
  refine ⟨?_, trivial⟩
  show pb.TableInUniverse (g.table.intern a).2
  unfold AtomTable.intern
  split
  · exact hI
  · -- a new atom is appended once
    rename_i hnone
    have hnot : a ∉ g.table.atoms := List.idxOf?_eq_none_iff.mp hnone
    refine ⟨List.nodup_append.mpr ⟨hI.1, List.nodup_singleton a, ?_⟩, fun b hb => ?_⟩
    · intro x hx y hy hxy
      rw [List.mem_singleton] at hy
      exact hnot (hy ▸ hxy ▸ hx)
    · rcases List.mem_append.mp hb with hb | hb
      · exact hI.2 b hb
      · rw [List.mem_singleton] at hb
        exact hb ▸ ha

theorem atomOf_keeps {l : Literal} (hl : pb.UniverseLiteral l) (ctx : String) :
    Keeps pb.TableInUniverse (fun _ => True) (atomOf ctx l) := by
  unfold atomOf
  rw [constNames_eq]
  split
  · rename_i names hnames
    exact intern_keeps (hl.atom hnames)
  · exact Keeps.throw

theorem formula_keeps (pb : Problem) (ctx : String) :
    ∀ (fuel : Nat) (c : Condition), c.InUniverse pb →
      Keeps pb.TableInUniverse (fun _ => True) (formula pb ctx fuel c)
  | 0, _, _ => Keeps.throw
  | _ + 1, .lit l, hc => by
      simp only [formula]
      exact (atomOf_keeps (hc l rfl) ctx).bind fun _ _ => Keeps.pure trivial
  | n + 1, .and cs, hc => by
      simp only [formula]
      exact Keeps.map (Keeps.mapM fun c hmem => formula_keeps pb ctx n c (inUniverse_of_mem_and hc hmem))
        fun _ _ => trivial
  | n + 1, .or cs, hc => by
      simp only [formula]
      exact Keeps.map (Keeps.mapM fun c hmem => formula_keeps pb ctx n c (inUniverse_of_mem_or hc hmem))
        fun _ _ => trivial
  | n + 1, .quant q vs body, hc => by
      simp only [formula]
      exact (Keeps.mapM fun d hmem => formula_keeps pb ctx n d (inUniverse_of_mem_expand hc.2 hmem)).bind
        fun _ _ => Keeps.pure trivial
  | _ + 1, .compare _, _ => Keeps.throw
  | _ + 1, .not _, _ => Keeps.throw
  | _ + 1, .when _ _, _ => Keeps.throw
  | _ + 1, .numEffect _, _ => Keeps.throw

theorem guard_keeps (pb : Problem) (ctx : String) {c : Condition} (hc : c.InUniverse pb) :
    Keeps pb.TableInUniverse (fun _ => True) (guard pb ctx c) := by
  have hs : (c.simplify false).InUniverse pb := inUniverse_simplify false hc
  unfold guard
  refine (Keeps.foldlM (fun _ => True) trivial fun acc d hd _ => ?_).bind fun r _ => ?_
  · have hdc := inUniverse_of_mem_conjuncts hs hd
    split
    · rename_i l
      exact (atomOf_keeps (hdc l rfl) ctx).bind fun _ _ => Keeps.pure trivial
    · exact (formula_keeps pb ctx _ _ hdc).bind fun _ _ => Keeps.pure trivial
  · obtain ⟨pos, neg, residual⟩ := r
    simp only
    exact Keeps.ite (Keeps.pure trivial) (Keeps.ite (Keeps.pure trivial) (Keeps.pure trivial))

end Grounder

/-- The prerequisites recorded in the effect lists are in the universe. -/
def EffectLists.InUniverse (pb : Problem) (e : EffectLists) : Prop := ∀ x ∈ e.cond, x.1.InUniverse pb

theorem EffectLists.InUniverse.push {pb : Problem} {e : EffectLists} (he : e.InUniverse pb)
    {pre : Option Condition} (hpre : ∀ p, pre = some p → p.InUniverse pb) (a : AtomId)
    (isDel : Bool) : (e.push pre a isDel).InUniverse pb := by
  intro q hq
  rcases EffectLists.key_of_mem_push hq with ⟨q', hq', hkey⟩ | hkey
  · exact hkey ▸ he q' hq'
  · cases pre with
    | none => cases hkey
    | some p =>
        rw [Option.toList_some, List.mem_singleton] at hkey
        exact hkey ▸ hpre p rfl

namespace Grounder

open GroundM Condition

variable {pb : Problem}

theorem collectEffects_keeps (pb : Problem) (ctx : String) :
    ∀ (fuel : Nat) (c : Condition) (pre : Option Condition) (e : EffectLists), c.InUniverse pb →
      (∀ p, pre = some p → p.InUniverse pb) → e.InUniverse pb →
        Keeps pb.TableInUniverse (EffectLists.InUniverse pb) (collectEffects pb ctx fuel c pre e)
  | 0, _, _, _, _, _, he => Keeps.pure he
  | _ + 1, .lit l, _, _, hc, hpre, he => by
      simp only [collectEffects]
      exact (atomOf_keeps (hc l rfl) ctx).bind fun a _ => Keeps.pure (he.push hpre a l.negated)
  | n + 1, .and cs, pre, _, hc, hpre, he => by
      simp only [collectEffects]
      exact Keeps.foldlM (EffectLists.InUniverse pb) he fun e' c hmem he' =>
        collectEffects_keeps pb ctx n c pre e' (inUniverse_of_mem_and hc hmem) hpre he'
  | n + 1, .when p c, pre, e, hc, hpre, he => by
      simp only [collectEffects]
      refine collectEffects_keeps pb ctx n c _ e hc.2.2 ?_ he
      -- the prerequisite conjoined with the enclosing one is in the universe
      intro p' hp'
      cases pre with
      | none =>
          cases hp'
          exact hc.2.1
      | some outer =>
          cases hp'
          refine inUniverse_simplify false ((inUniverse_build_iff .conj [outer, p]).mpr ?_)
          intro d hd
          rcases List.mem_pair.mp hd with rfl | rfl
          · exact hpre d rfl
          · exact hc.2.1
  | n + 1, .quant .all vs body, pre, _, hc, hpre, he => by
      simp only [collectEffects]
      exact Keeps.foldlM (EffectLists.InUniverse pb) he fun e' d hmem he' =>
        collectEffects_keeps pb ctx n d pre e' (inUniverse_of_mem_expand hc.2 hmem) hpre he'
  | _ + 1, .quant .any _ _, _, _, _, _, _ => Keeps.throw
  | _ + 1, .numEffect _, _, _, _, _, he => by
      simp only [collectEffects]
      refine (Keeps.modify ?_).bind fun _ _ => Keeps.pure he
      exact fun _ => rfl
  | _ + 1, .or _, _, _, _, _, _ => Keeps.throw
  | _ + 1, .not _, _, _, _, _, _ => Keeps.throw
  | _ + 1, .compare _, _, _, _, _, _ => Keeps.throw

/-- Instantiating an operator whose literals are in the universe with objects keeps the table in
the universe. -/
theorem action_keeps {op : Operator} (hpre : op.pre.InUniverse pb) (heff : op.eff.InUniverse pb)
    {args : List Argument} (hargs : pb.ObjectArgs args) :
    Keeps pb.TableInUniverse (fun _ => True) (action pb op args) := by
  have heff' : ((op.eff.bind op.params args).simplify false).InUniverse pb :=
    inUniverse_simplify false (inUniverse_bind heff hargs)
  unfold action
  refine (guard_keeps pb op.name (inUniverse_bind hpre hargs)).bind fun g _ => ?_
  split
  · refine (collectEffects_keeps pb op.name _ _ none {} heff' (by simp)
      (by simp [EffectLists.InUniverse])).bind fun effs heffs => ?_
    refine (Keeps.foldlM (fun _ => True) trivial fun acc x hx _ => ?_).bind fun _ _ => ?_
    · refine (guard_keeps pb op.name (heffs x hx)).bind fun _ _ => ?_
      split
      · exact Keeps.pure trivial
      · exact Keeps.ite (Keeps.pure trivial) (Keeps.pure trivial)
    · exact Keeps.pure trivial
  · exact Keeps.pure trivial

/-- Instantiating an axiom whose condition is in the universe and whose head has an instance
literal's signature, with an object for each parameter, keeps the table in the universe. -/
theorem axiomInstance_keeps {ax : Axiom} (hcond : ax.cond.InUniverse pb)
    (hhead : pb.Signature ax.pred.name ax.params.length)
    {args : List Argument} (hlen : args.length = ax.params.length) (hargs : pb.ObjectArgs args) :
    Keeps pb.TableInUniverse (fun _ => True) (axiomInstance pb ax args) := by
  have hlit := Problem.universeLiteral_head hhead hlen hargs
  unfold axiomInstance
  refine (guard_keeps pb _ (inUniverse_bind hcond hargs)).bind fun g _ => ?_
  split
  · exact (atomOf_keeps hlit _).bind fun _ _ => Keeps.pure trivial
  · exact Keeps.pure trivial

theorem instantiateNew_keeps {β : Type} {i : Nat} {bindings : List (List Argument)}
    {inst : List Argument → GroundM (Option β)} {seen : List (Nat × List String)} {pending : List β}
    (h : ∀ args ∈ bindings, Keeps pb.TableInUniverse (fun _ => True) (inst args)) :
    Keeps pb.TableInUniverse (fun _ => True) (instantiateNew i bindings inst seen pending) := by
  unfold instantiateNew
  refine Keeps.foldlM (fun _ => True) trivial fun acc args hargs _ => ?_
  simp only
  refine Keeps.ite (Keeps.pure trivial) ((h args hargs).bind fun b _ => ?_)
  split <;> exact Keeps.pure trivial

theorem reach_keeps (f : Frontier) (a : AtomId) :
    Keeps pb.TableInUniverse (fun _ => True) (reach f a) := by
  unfold reach
  exact Keeps.ite (Keeps.pure trivial) (Keeps.get.bind fun _ _ => Keeps.pure trivial)

/-- A round keeps the table in the universe. -/
theorem reachRound_keeps (first : Bool) (f : Frontier) :
    Keeps pb.TableInUniverse (fun _ => True) (reachRound pb first f) := by
  unfold reachRound
  refine (Keeps.foldlM (fun _ => True) trivial fun acc x hx _ => ?_).bind fun r _ => ?_
  · obtain ⟨op, i⟩ := x
    obtain ⟨hpre, heff⟩ := Problem.operator_inUniverse (List.fst_mem_of_mem_zipIdx hx)
    exact instantiateNew_keeps fun args hargs =>
      action_keeps hpre heff (Problem.objectArgs_of_mem_newBindings hargs).2
  obtain ⟨seenActions, pendingActions⟩ := r
  refine (Keeps.foldlM (fun _ => True) trivial fun acc x hx _ => ?_).bind fun r _ => ?_
  · obtain ⟨ax, i⟩ := x
    obtain ⟨hcond, hhead⟩ := Problem.axiom_inUniverse (List.fst_mem_of_mem_zipIdx hx)
    exact instantiateNew_keeps fun args hargs =>
      axiomInstance_keeps hcond hhead (Problem.objectArgs_of_mem_newBindings hargs).1
        (Problem.objectArgs_of_mem_newBindings hargs).2
  obtain ⟨seenAxioms, pendingAxioms⟩ := r
  exact Keeps.foldlM (fun _ => True) trivial fun acc a _ _ =>
    (reach_keeps _ _).bind fun r _ => Keeps.pure trivial

theorem reachRounds_keeps :
    ∀ (fuel : Nat) (first : Bool) (f : Frontier),
      Keeps pb.TableInUniverse (fun _ => True) (reachRounds pb fuel first f)
  | 0, _, _ => Keeps.pure trivial
  | n + 1, first, f => by
      simp only [reachRounds]
      refine (reachRound_keeps first f).bind fun r _ => ?_
      obtain ⟨f', count⟩ := r
      exact Keeps.ite (Keeps.pure trivial) (reachRounds_keeps n false f')

end Grounder

/-! ## Numbers handed out are in the table -/

theorem AtomTable.Extends.size_le {t t' : AtomTable} (h : t.Extends t') : t.size ≤ t'.size :=
  h.length_le

/-- A number the table gives an atom is one of its positions. -/
theorem AtomTable.Numbers.lt_size {T : AtomTable} {l : Literal} {i : AtomId}
    (h : T.Numbers l i) : i < T.size := by
  obtain ⟨names, -, hfind⟩ := h
  exact (List.idxOf?_eq_some_iff.mp hfind).1

/-- The atoms the effect lists add, unconditionally or under a prerequisite, are numbered by the
table. -/
def EffectLists.AddsIn (e : EffectLists) (T : AtomTable) : Prop :=
  (∀ i ∈ e.add, i < T.size) ∧ ∀ q ∈ e.cond, ∀ i ∈ q.2.1, i < T.size

/-- The atoms the action adds, unconditionally or by a conditional effect, are numbered by the
table. -/
def Action.AddsIn (a : Action) (T : AtomTable) : Prop :=
  (∀ i ∈ a.add, i < T.size) ∧ ∀ ce ∈ a.cond, ∀ i ∈ ce.add, i < T.size

theorem Action.AddsIn.extend {a : Action} {T T' : AtomTable} (h : a.AddsIn T) (hT : T.Extends T') :
    a.AddsIn T' :=
  ⟨fun i hi => Nat.lt_of_lt_of_le (h.1 i hi) hT.size_le,
    fun ce hce i hi => Nat.lt_of_lt_of_le (h.2 ce hce i hi) hT.size_le⟩

/-- What the action adds in any state is numbered by the table. -/
theorem Action.AddsIn.relaxedAdds {a : Action} {T : AtomTable} (h : a.AddsIn T) (s : State) :
    ∀ i ∈ a.relaxedAdds s, i < T.size := by
  intro i hi
  rcases List.mem_append.mp hi with hi | hi
  · exact h.1 i hi
  · obtain ⟨ce, hce, hi⟩ := List.mem_flatMap.mp hi
    exact h.2 ce (List.mem_of_mem_filter hce) i hi

theorem EffectLists.AddsIn.push {e : EffectLists} {T : AtomTable} (he : e.AddsIn T)
    (pre : Option Condition) {a : AtomId} (ha : a < T.size) (isDel : Bool) :
    (e.push pre a isDel).AddsIn T := by
  unfold EffectLists.push
  split
  · split
    · exact he
    · refine ⟨fun i hi => ?_, he.2⟩
      rcases List.mem_append.mp hi with hi | hi
      · exact he.1 i hi
      · exact (List.mem_singleton.mp hi) ▸ ha
  · rename_i p
    split
    · -- the entries of the prerequisite gain the atom
      refine ⟨he.1, fun q hq i hi => ?_⟩
      obtain ⟨⟨q', ad, dl⟩, hq', rfl⟩ := List.mem_map.mp hq
      have hold := he.2 _ hq'
      dsimp only at hi
      split at hi
      · split at hi
        · exact hold i hi
        · rcases List.mem_append.mp hi with hi | hi
          · exact hold i hi
          · exact (List.mem_singleton.mp hi) ▸ ha
      · exact hold i hi
    · refine ⟨he.1, fun q hq i hi => ?_⟩
      rcases List.mem_append.mp hq with hq | hq
      · exact he.2 q hq i hi
      · rw [List.mem_singleton] at hq
        subst hq
        split at hi
        · cases hi
        · exact (List.mem_singleton.mp hi) ▸ ha

namespace Grounder

open GroundM Condition

end Grounder

end Pddl
