import Pddl.Proofs.Ground.Layers
import Pddl.Proofs.Ground.Strata
/-!
# The atom pool of a ground problem

A ground problem numbers its atoms by their positions in its table, and a state is a row of truth
values indexed by these numbers. A row is widened when an atom beyond it is made true, and two
states are equal only when their rows have the same width; the search keeps the states it has
met and compares them for equality, so it compares sets of true atoms only while all the states
it meets have one width.

They do, for every ground problem that grounding builds. Instantiation hands out numbers from a
table that only grows, so every number an action, an axiom or the goal mentions is below the size
of the final table (`AtomTable.Covers`); the initial state is made as wide as that table once all
these atoms have been met. A step then gives values to atoms of the table only, which keeps the
width of the state.

Main statement: `Problem.ground_states_have_full_width`.
-/

namespace Pddl

/-! ## Numbers a table hands out -/

namespace AtomTable

/-- Every number of the list is a position of the table. -/
def Covers (T : AtomTable) (ids : List AtomId) : Prop := ∀ i ∈ ids, i < T.size

variable {T T' : AtomTable} {ids ids' : List AtomId}

@[simp] theorem covers_nil : T.Covers [] := nofun

@[simp] theorem covers_cons {i : AtomId} : T.Covers (i :: ids) ↔ i < T.size ∧ T.Covers ids :=
  List.forall_mem_cons

@[simp] theorem covers_append : T.Covers (ids ++ ids') ↔ T.Covers ids ∧ T.Covers ids' :=
  List.forall_mem_append

@[simp] theorem covers_flatMap {α : Type} {xs : List α} {f : α → List AtomId} :
    T.Covers (xs.flatMap f) ↔ ∀ x ∈ xs, T.Covers (f x) := by
  simp only [Covers, List.mem_flatMap]
  exact ⟨fun h x hx i hi => h i ⟨x, hx, hi⟩, fun h i ⟨x, hx, hi⟩ => h x hx i hi⟩

@[simp] theorem covers_normalized : T.Covers (Grounder.normalized ids) ↔ T.Covers ids := by
  simp only [Covers, Grounder.mem_normalized]

theorem Covers.extend (h : T.Covers ids) (hT : T.Extends T') : T'.Covers ids :=
  fun i hi => Nat.lt_of_lt_of_le (h i hi) hT.size_le

end AtomTable

/-! ## The atom numbers of ground conditions, actions and problems -/

/-- The atom numbers a formula reads, left to right. -/
def Formula.atomIds (f : Formula) : List AtomId := f.literals.map Prod.fst

/-- The atom numbers a guard reads: its true atoms, its false atoms and those of its formula. -/
def Guard.atomIds (g : Guard) : List AtomId := g.literals.map Prod.fst

/-- The atom numbers a conditional effect reads or sets. -/
def ConditionalEffect.atomIds (ce : ConditionalEffect) : List AtomId :=
  ce.guard.atomIds ++ ce.add ++ ce.del

/-- The atom numbers an action reads or sets: those of its precondition, its own additions and
deletions, and those of its conditional effects. -/
def Action.atomIds (a : Action) : List AtomId :=
  a.pre.atomIds ++ a.add ++ a.del ++ a.cond.flatMap ConditionalEffect.atomIds

/-- The atom numbers of an axiom: its head and those its guard reads. -/
def GroundAxiom.atomIds (ax : GroundAxiom) : List AtomId := ax.atom :: ax.guard.atomIds

/-- Every atom number a ground problem mentions: in its goal, its actions and its axioms. -/
def GroundProblem.atomIds (gp : GroundProblem) : List AtomId :=
  gp.goal.atomIds ++ gp.actions.flatMap Action.atomIds ++ gp.axioms.flatMap GroundAxiom.atomIds

namespace Formula

theorem literalsAll_eq_flatMap : ∀ fs : List Formula, literalsAll fs = fs.flatMap literals
  | [] => rfl
  | f :: fs => by rw [literalsAll, literalsAll_eq_flatMap fs, List.flatMap_cons]

@[simp] theorem atomIds_lit (a : AtomId) (p : Bool) : (Formula.lit a p).atomIds = [a] := rfl

@[simp] theorem atomIds_and (fs : List Formula) : (Formula.and fs).atomIds = fs.flatMap atomIds := by
  simp only [atomIds, literals, literalsAll_eq_flatMap, List.map_flatMap]
  rfl

@[simp] theorem atomIds_or (fs : List Formula) : (Formula.or fs).atomIds = fs.flatMap atomIds := by
  simp only [atomIds, literals, literalsAll_eq_flatMap, List.map_flatMap]
  rfl

/-- A conjunction or a disjunction of formulas reads the atoms its members read. -/
theorem covers_junction {T : AtomTable} {fs : List Formula} (h : ∀ f ∈ fs, T.Covers f.atomIds) :
    T.Covers (Formula.and fs).atomIds ∧ T.Covers (Formula.or fs).atomIds := by
  rw [atomIds_and, atomIds_or, AtomTable.covers_flatMap]
  exact ⟨h, h⟩

end Formula

@[simp] theorem Guard.atomIds_eq (g : Guard) :
    g.atomIds = g.positive ++ g.negative ++ g.formula.toList.flatMap Formula.atomIds := by
  obtain ⟨pos, neg, f⟩ := g
  cases f <;> simp [Guard.atomIds, Guard.literals, Formula.atomIds, Function.comp_def]

/-! ## Widths of states -/

namespace State

theorem width_setTo_of_lt {s : State} {a : AtomId} (ha : a < s.width) (v : Bool) :
    (s.setTo a v).width = s.width := by
  unfold setTo
  unfold width at ha ⊢
  rw [if_pos ha]
  simp

@[simp] theorem width_allFalse (n : Nat) : (allFalse n).width = n := by
  simp [allFalse, width]

/-- Making true atoms of the row keeps its width. -/
theorem width_foldl_add {l : List AtomId} {s : State} (hl : ∀ a ∈ l, a < s.width) :
    (l.foldl add s).width = s.width := by
  induction l generalizing s with
  | nil => rfl
  | cons a l ih =>
      have hstep : (s.add a).width = s.width := width_setTo_of_lt (hl a (.head _)) true
      rw [List.foldl_cons, ih fun b hb => hstep ▸ hl b (.tail _ hb), hstep]

end State

/-- An action that makes true atoms of the row only keeps the width of the state. -/
theorem Action.width_apply {a : Action} {s : State}
    (hadd : ∀ x ∈ a.add ++ a.cond.flatMap (·.add), x < s.width) : (a.apply s).width = s.width := by
  unfold apply
  have hdel := State.width_foldl_del (a.del ++ (a.triggered s).flatMap (·.del)) s
  refine (State.width_foldl_add fun x hx => ?_).trans hdel
  rw [hdel]
  apply hadd
  simp only [List.mem_append, List.mem_flatMap] at hx ⊢
  rcases hx with hx | ⟨c, hc, hx⟩
  · exact .inl hx
  · exact .inr ⟨c, (List.mem_filter.mp hc).1, hx⟩

/-- A round of rules whose heads are in the row keeps the width of the state. -/
theorem width_fireRules {rules : List GroundAxiom} {s : State}
    (hrules : ∀ ax ∈ rules, ax.atom < s.width) : (fireRules s rules).1.width = s.width := by
  unfold fireRules
  -- the flag carried by the fold plays no part in the width
  suffices h : ∀ acc : State × Bool, acc.1.width = s.width →
      (rules.foldl fireRule acc).1.width = s.width from h (s, false) rfl
  induction rules with
  | nil => intro acc hacc; exact hacc
  | cons ax rules ih =>
      intro acc hacc
      have hstep : (fireRule acc ax).1.width = s.width := by
        unfold fireRule
        split
        · rw [← hacc]
          exact State.width_setTo_of_lt (hacc ▸ hrules ax (.head _)) true
        · exact hacc
      rw [List.foldl_cons]
      exact ih (fun b hb => hrules b (.tail _ hb)) _ hstep

theorem width_saturate {rules : List GroundAxiom} (fuel : Nat) {s : State}
    (hrules : ∀ ax ∈ rules, ax.atom < s.width) : (saturate rules fuel s).width = s.width := by
  induction fuel generalizing s with
  | zero => rfl
  | succ fuel ih =>
      have hround := width_fireRules hrules
      simp only [saturate]
      split
      · rw [ih (hround ▸ hrules), hround]
      · exact hround

/-- Recomputing the derived atoms keeps the width of a state whose row holds the heads of the
rules. -/
theorem GroundProblem.width_close {gp : GroundProblem} {s : State}
    (haxioms : ∀ ax ∈ gp.axioms, ax.atom < s.width) : (gp.close s).width = s.width := by
  unfold close
  split
  · rfl
  · dsimp only
    have hcleared := State.width_foldl_del (gp.axioms.map (·.atom)) s
    rw [List.foldl_map] at hcleared
    -- the strata are taken one after the other, each keeping the width
    suffices h : ∀ (strata : List (List GroundAxiom)),
        (∀ r ∈ strata, r ∈ sliceStrata gp.axioms gp.strata) → ∀ t : State, t.width = s.width →
          (strata.foldl (fun s rules => saturate rules (rules.length + 1) s) t).width = s.width from
      h _ (fun r hr => hr) _ hcleared
    intro strata
    induction strata with
    | nil => intro _ t ht; exact ht
    | cons r strata ih =>
        intro hstrata t ht
        have hr : ∀ ax ∈ r, ax.atom < t.width := fun ax hax =>
          ht ▸ haxioms ax (mem_of_mem_sliceStrata (hstrata r (.head _)) ax hax)
        rw [List.foldl_cons]
        exact ih (fun r' hr' => hstrata r' (.tail _ hr')) _ ((width_saturate _ hr).trans ht)

/-! ## Instantiation hands out numbers of the table -/

namespace GroundM

variable {α β : Type} {Pre : AtomTable → Prop}

/-- Lifting a computation without the grounder returns its value and keeps the table. -/
theorem Yields.lift_ok {x : Except GroundingError α} :
    Yields Pre (fun r _ => x = .ok r) (StateT.lift x : GroundM α) := by
  intro g a g' _ hrun
  cases hx : x with
  | error e =>
      rw [hx] at hrun
      cases hrun
  | ok b =>
      rw [hx] at hrun
      cases hrun
      exact ⟨AtomTable.Extends.refl _, fun _ _ => rfl⟩

/-- A loop whose every step only adds atoms only adds atoms. -/
theorem Yields.forIn {f : α → β → GroundM (ForInStep β)} {P₀ : AtomTable → Prop} {xs : List α}
    {b : β} (h : ∀ x ∈ xs, ∀ b, Yields (fun _ => True) (fun _ _ => True) (f x b)) :
    Yields P₀ (fun _ _ => True) (forIn xs b f) := by
  induction xs generalizing P₀ b with
  | nil => exact Yields.pure fun _ _ => trivial
  | cons x xs ih =>
      rw [List.forIn_cons]
      refine ((h x (.head _) b).imp (fun _ _ => trivial) fun _ _ _ h => h).bind fun step => ?_
      cases step with
      | done _ => exact Yields.pure fun _ _ => trivial
      | yield _ => exact ih fun y hy => h y (.tail _ hy)

/-- What a successful run from any grounder returns satisfies the postcondition in some table. -/
theorem Yields.run'_ok {P : α → AtomTable → Prop} {x : GroundM α}
    (hx : Yields (fun _ => True) P x) {g : Grounder} {a : α} (h : x.run' g = .ok a) : ∃ T, P a T := by
  rw [StateT.run'_eq] at h
  cases hrun : x.run g with
  | error e =>
      rw [hrun] at h
      cases h
  | ok p =>
      obtain ⟨a', g'⟩ := p
      rw [hrun] at h
      cases h
      exact ⟨g'.table, (hx g a' g' (fun _ _ => trivial) hrun).2 g'.table (AtomTable.Extends.refl _)⟩

end GroundM

theorem forall_mem_of_forall₂ {α β : Type} {P : β → Prop} {xs : List α} {ys : List β}
    (h : List.Forall₂ (fun _ y => P y) xs ys) : ∀ y ∈ ys, P y := by
  induction h with
  | nil => exact List.forall_mem_nil _
  | cons hxy _ ih => exact List.forall_mem_cons.mpr ⟨hxy, ih⟩

/-- The atom numbers the effect lists record, unconditionally or under a prerequisite. -/
def EffectLists.atomIds (e : EffectLists) : List AtomId :=
  e.add ++ e.del ++ e.cond.flatMap fun q => q.2.1 ++ q.2.2

/-- Recording an atom records no other number. -/
theorem EffectLists.mem_atomIds_push {e : EffectLists} {pre : Option Condition} {a i : AtomId}
    {isDel : Bool} (hi : i ∈ (e.push pre a isDel).atomIds) : i = a ∨ i ∈ e.atomIds := by
  unfold push at hi
  split at hi
  · cases isDel <;> simp only [atomIds, List.mem_append] at hi ⊢ <;> grind
  · split at hi
    · -- the entries of the prerequisite gain the atom, the others stay as they are
      simp only [atomIds, List.mem_append, List.mem_flatMap, List.mem_map] at hi ⊢
      grind
    · simp only [atomIds, List.mem_append, List.mem_flatMap, List.mem_singleton] at hi ⊢
      grind

theorem EffectLists.covers_push {T : AtomTable} {e : EffectLists} (he : T.Covers e.atomIds)
    (pre : Option Condition) {a : AtomId} (ha : a < T.size) (isDel : Bool) :
    T.Covers (e.push pre a isDel).atomIds := by
  intro i hi
  rcases mem_atomIds_push hi with rfl | hi
  · exact ha
  · exact he i hi

namespace Grounder

open GroundM

variable {Pre : AtomTable → Prop}

/-- A formula reads atoms of the table only. -/
theorem formula_numbered (pb : Problem) (ctx : String) :
    ∀ (n : Nat) (c : Condition), Yields Pre (fun f T => T.Covers f.atomIds) (formula pb ctx n c)
  | 0, _ => Yields.throw
  | _ + 1, .lit l => by
      simp only [formula]
      exact (atomOf_yields ctx l).bind fun i =>
        Yields.pure fun T hT => AtomTable.covers_cons.mpr ⟨hT.2.lt_size, AtomTable.covers_nil⟩
  | n + 1, .and cs => by
      simp only [formula]
      exact (Yields.mapM fun c _ => formula_numbered pb ctx n c).map fun _ _ _ hfs =>
        (Formula.covers_junction (forall_mem_of_forall₂ hfs)).1
  | n + 1, .or cs => by
      simp only [formula]
      exact (Yields.mapM fun c _ => formula_numbered pb ctx n c).map fun _ _ _ hfs =>
        (Formula.covers_junction (forall_mem_of_forall₂ hfs)).2
  | n + 1, .quant q vs body => by
      simp only [formula]
      refine (Yields.mapM fun d _ => formula_numbered pb ctx n d).bind
        fun fs => Yields.pure fun T hT => ?_
      have hjunction := Formula.covers_junction (forall_mem_of_forall₂ hT.2)
      cases q
      · exact hjunction.1
      · exact hjunction.2
  | _ + 1, .compare _ => Yields.throw
  | _ + 1, .not _ => Yields.throw
  | _ + 1, .when .. => Yields.throw
  | _ + 1, .numEffect _ => Yields.throw

/-- What is gathered for a guard, true atoms, false atoms and formulas, reads atoms of the table
only. -/
def GatheredIn (T : AtomTable) (acc : List AtomId × List AtomId × List Formula) : Prop :=
  T.Covers acc.1 ∧ T.Covers acc.2.1 ∧ ∀ f ∈ acc.2.2, T.Covers f.atomIds

/-- The formula made of the gathered formulas reads the atoms they read. -/
theorem covers_residual {T : AtomTable} {residual : List Formula}
    (h : ∀ f ∈ residual, T.Covers f.atomIds) :
    ∀ f ∈ (match residual with
      | [] => none
      | [f] => some f
      | fs => some (Formula.and fs)), T.Covers f.atomIds := by
  split
  · exact fun _ hf => nomatch hf
  · intro f hf
    rw [Option.mem_def, Option.some.injEq] at hf
    subst hf
    exact h _ (.head _)
  · intro f hf
    rw [Option.mem_def, Option.some.injEq] at hf
    subst hf
    exact (Formula.covers_junction h).1

/-- A guard reads atoms of the table only. -/
theorem guard_numbered (pb : Problem) (ctx : String) (c : Condition) :
    Yields Pre (fun r T => ∀ g ∈ r, T.Covers g.atomIds) (guard pb ctx c) := by
  unfold guard
  refine (Yields.foldlM (fun _ acc T => GatheredIn T acc) _ (fun _ _ => by simp [GatheredIn])
    fun done acc d hd => ?_).bind fun r => ?_
  · split
    · rename_i l
      refine (atomOf_yields ctx l).bind fun i => Yields.pure fun T hT => ?_
      obtain ⟨⟨hpos, hneg, hres⟩, hi⟩ := hT
      have hlt := hi.lt_size
      split
      · exact ⟨hpos, by simp [hneg, hlt], hres⟩
      · exact ⟨by simp [hpos, hlt], hneg, hres⟩
    · refine (formula_numbered pb ctx _ _).bind fun f => Yields.pure fun T hT => ?_
      obtain ⟨⟨hpos, hneg, hres⟩, hf⟩ := hT
      refine ⟨hpos, hneg, fun f' hf' => ?_⟩
      rcases List.mem_append.mp hf' with hf' | hf'
      · exact hres f' hf'
      · rw [List.mem_singleton.mp hf']
        exact hf
  · obtain ⟨pos, neg, residual⟩ := r
    simp only
    split_ifs
    · exact Yields.pure fun _ _ _ hg => nomatch hg
    · exact Yields.pure fun _ _ _ hg => nomatch hg
    · -- the guard keeps the gathered atoms, sorted, and the formula made of the gathered ones
      refine Yields.pure fun T hT g hg => ?_
      rw [Option.mem_def, Option.some.injEq] at hg
      subst hg
      obtain ⟨hpos, hneg, hres⟩ := hT.2
      rw [Guard.atomIds_eq, AtomTable.covers_append, AtomTable.covers_append,
        AtomTable.covers_normalized, AtomTable.covers_normalized, AtomTable.covers_flatMap]
      exact ⟨⟨hpos, hneg⟩, fun f hf => covers_residual hres f (Option.mem_toList.mp hf)⟩

/-- Collecting an effect records atoms of the table only. -/
theorem collectEffects_numbered (pb : Problem) (ctx : String) :
    ∀ (fuel : Nat) (c : Condition) (pre : Option Condition) (e : EffectLists),
      Yields (fun T => T.Covers e.atomIds) (fun e' T => T.Covers e'.atomIds)
        (collectEffects pb ctx fuel c pre e)
  | 0, _, _, _ => Yields.pure fun _ h => h
  | _ + 1, .lit l, pre, e => by
      simp only [collectEffects]
      exact (atomOf_yields ctx l).bind fun a =>
        Yields.pure fun T hT => EffectLists.covers_push hT.1 pre hT.2.lt_size l.negated
  | n + 1, .and cs, pre, e => by
      simp only [collectEffects]
      exact Yields.foldlM (fun _ acc T => T.Covers acc.atomIds) cs
        (fun (_ : AtomTable) (h : AtomTable.Covers _ e.atomIds) => h)
        fun _ acc c _ => collectEffects_numbered pb ctx n c pre acc
  | n + 1, .when p c, pre, e => by
      simp only [collectEffects]
      exact collectEffects_numbered pb ctx n c _ e
  | n + 1, .quant .all vs body, pre, e => by
      simp only [collectEffects]
      exact Yields.foldlM (fun _ acc T => T.Covers acc.atomIds) _
        (fun (_ : AtomTable) (h : AtomTable.Covers _ e.atomIds) => h)
        fun _ acc d _ => collectEffects_numbered pb ctx n d pre acc
  | _ + 1, .quant .any _ _, _, _ => Yields.throw
  | _ + 1, .numEffect _, _, e => by
      simp only [collectEffects]
      refine (Yields.modify ?_).bind fun _ => Yields.pure fun _ h => h.1
      exact fun _ => rfl
  | _ + 1, .or _, _, _ => Yields.throw
  | _ + 1, .not _, _, _ => Yields.throw
  | _ + 1, .compare _, _, _ => Yields.throw

/-- What an instance of an operator is built from while its conditional parts are settled: the
collected lists, the additions, deletions and conditional effects so far. -/
def SettledIn (effs : EffectLists) (T : AtomTable)
    (acc : List AtomId × List AtomId × List ConditionalEffect) : Prop :=
  T.Covers effs.atomIds ∧ T.Covers acc.1 ∧ T.Covers acc.2.1 ∧ ∀ ce ∈ acc.2.2, T.Covers ce.atomIds

/-- An instance of an operator reads and sets atoms of the table only. -/
theorem action_numbered (pb : Problem) (op : Operator) (args : List Argument) :
    Yields Pre (fun r T => ∀ a ∈ r, T.Covers a.atomIds) (action pb op args) := by
  unfold action
  refine (guard_numbered pb op.name _).bind fun r => ?_
  rcases r with _ | pre
  · exact Yields.pure fun _ _ _ ha => nomatch ha
  · refine ((collectEffects_numbered pb op.name _ _ none {}).imp
      (fun _ _ => by simp [EffectLists.atomIds]) fun _ _ _ h => h).bind fun effs => ?_
    -- each prerequisite's part is dropped, merged or kept: every list reads atoms of the table
    refine (Yields.foldlM (fun _ acc T => SettledIn effs T acc) effs.cond
      (fun _ h => ?_) fun done acc q hq => ?_).bind fun acc => ?_
    · have hlists := h.2
      simp only [EffectLists.atomIds, AtomTable.covers_append] at hlists
      exact ⟨h.2, hlists.1.1, hlists.1.2, nofun⟩
    · obtain ⟨p, ad, dl⟩ := q
      refine (guard_numbered pb op.name p).bind fun r => ?_
      have hpart : ∀ T : AtomTable, T.Covers effs.atomIds → T.Covers ad ∧ T.Covers dl := by
        intro T hT
        have hcond := (AtomTable.covers_append.mp hT).2
        exact AtomTable.covers_append.mp (AtomTable.covers_flatMap.mp hcond _ hq)
      split
      · exact Yields.pure fun _ h => h.1
      · rename_i g
        split
        · refine Yields.pure fun T h => ?_
          obtain ⟨⟨heffs, hadd, hdel, hconds⟩, -⟩ := h
          obtain ⟨had, hdl⟩ := hpart T heffs
          exact ⟨heffs, AtomTable.covers_append.mpr ⟨hadd, had⟩,
            AtomTable.covers_append.mpr ⟨hdel, hdl⟩, hconds⟩
        · refine Yields.pure fun T h => ?_
          obtain ⟨⟨heffs, hadd, hdel, hconds⟩, hg⟩ := h
          obtain ⟨had, hdl⟩ := hpart T heffs
          refine ⟨heffs, hadd, hdel, fun ce hce => ?_⟩
          rcases List.mem_append.mp hce with hce | hce
          · exact hconds ce hce
          · rw [List.mem_singleton.mp hce]
            simp only [ConditionalEffect.atomIds, AtomTable.covers_append,
              AtomTable.covers_normalized]
            exact ⟨⟨hg g rfl, had⟩, hdl⟩
    · refine Yields.pure fun T h a ha => ?_
      rw [Option.mem_def, Option.some.injEq] at ha
      subst ha
      obtain ⟨⟨⟨-, hpre⟩, -⟩, -, hadd, hdel, hconds⟩ := h
      simp only [Action.atomIds, AtomTable.covers_append, AtomTable.covers_normalized,
        AtomTable.covers_flatMap]
      exact ⟨⟨⟨hpre pre rfl, hadd⟩, hdel⟩, hconds⟩

/-- An instance of an axiom derives and reads atoms of the table only. -/
theorem axiomInstance_numbered (pb : Problem) (ax : Axiom) (args : List Argument) :
    Yields Pre (fun r T => ∀ x ∈ r, T.Covers x.atomIds) (axiomInstance pb ax args) := by
  unfold axiomInstance
  refine (guard_numbered pb ax.pred.name _).bind fun r => ?_
  rcases r with _ | g
  · exact Yields.pure fun _ _ _ hx => nomatch hx
  · refine (atomOf_yields ax.pred.name _).bind fun a => Yields.pure fun T hT x hx => ?_
    rw [Option.mem_def, Option.some.injEq] at hx
    subst hx
    exact AtomTable.covers_cons.mpr ⟨hT.2.lt_size, hT.1.2 g rfl⟩

/-- The finished problem mentions atoms of its own table only, and its initial state is as wide
as that table, when the actions and axioms it is given mention atoms of the table only. -/
theorem finish_numbered (pb : Problem) (actions : List Action) (axioms : List GroundAxiom) :
    Yields (fun T => (∀ a ∈ actions, T.Covers a.atomIds) ∧ ∀ ax ∈ axioms, T.Covers ax.atomIds)
      (fun r _ => r.1.atoms.Covers r.1.atomIds ∧ r.1.init.width = r.1.atoms.size)
      (finish pb actions axioms) := by
  unfold finish
  refine (Yields.mapM fun l _ => atomOf_yields "init" l).bind fun initAtoms => ?_
  refine (guard_numbered pb "goal" _).bind fun r => ?_
  refine Yields.get.bind fun g => ?_
  refine Yields.lift_ok.bind fun strat => ?_
  obtain ⟨axs, strata⟩ := strat
  refine Yields.pure fun T hT => ?_
  -- the table read by `get` holds every atom met
  obtain ⟨⟨⟨hactions, haxioms⟩, hinit⟩, hgoal⟩ := hT.1.2.2 g.table (AtomTable.Extends.refl _)
  -- stratification only reorders the axioms
  have haxs : ∀ ax ∈ axs, g.table.Covers ax.atomIds := by
    obtain ⟨lv, -, hsorted, -⟩ := stratify_eq_ok hT.2
    intro ax hax
    rw [hsorted, List.mem_mergeSort] at hax
    exact haxioms ax hax
  have hgoal' : g.table.Covers (r.getD Guard.unsatisfiable).atomIds := by
    cases r with
    | none => simp [Guard.unsatisfiable]
    | some goal => exact hgoal goal rfl
  -- the initial atoms are numbered by the table, so the row made for it keeps its width
  have hstart : (initAtoms.foldl State.add (State.allFalse g.table.size)).width = g.table.size := by
    have hlt := forall_mem_of_forall₂ (hinit.imp fun _ _ h => h.lt_size)
    rw [State.width_foldl_add (by simpa using hlt), State.width_allFalse]
  dsimp only
  refine ⟨?_, ?_⟩
  · simp only [GroundProblem.atomIds, AtomTable.covers_append, AtomTable.covers_flatMap]
    exact ⟨⟨hgoal', hactions⟩, haxs⟩
  · rw [GroundProblem.width_close, hstart]
    intro ax hax
    rw [hstart]
    exact (AtomTable.covers_cons.mp (haxs ax hax)).1

/-- Instantiating every schema over every binding gives instances that have, in every later
table, what each instantiation yields of its instance. -/
theorem instantiateAll_yields {α β : Type} {V : β → AtomTable → Prop} (pb : Problem)
    (schemas : List α) (params : α → List Param) (inst : α → List Argument → GroundM (Option β))
    (h : ∀ s ∈ schemas, ∀ args, Yields (fun _ => True) (fun r T => ∀ b ∈ r, V b T) (inst s args)) :
    Yields Pre (fun bs T => ∀ b ∈ bs, V b T) (instantiateAll pb schemas params inst) := by
  unfold instantiateAll
  refine Yields.foldlM (fun _ acc T => ∀ b ∈ acc, V b T) schemas (fun _ _ _ hb => nomatch hb)
    fun _ acc s hs => ?_
  refine Yields.foldlM (fun _ acc' T => ∀ b ∈ acc', V b T) _ (fun _ h => h) fun _ acc' args _ => ?_
  refine ((h s hs args).imp (fun _ _ => trivial) fun _ _ _ h => h).bind fun r => ?_
  split
  · rename_i b
    refine Yields.pure fun T hT b' hb' => ?_
    rcases List.mem_append.mp hb' with hb' | hb'
    · exact hT.1 b' hb'
    · rw [List.mem_singleton.mp hb']
      exact hT.2 b rfl
  · exact Yields.pure fun _ hT => hT.1

/-- The naive grounding mentions atoms of its table only, and its initial state is as wide as
the table. -/
theorem groundNaive_numbered (pb : Problem) :
    Yields (fun _ => True) (fun r _ => r.1.atoms.Covers r.1.atomIds ∧ r.1.init.width = r.1.atoms.size)
      (groundNaive pb) := by
  unfold groundNaive
  -- numbering the atoms of the predicates first only adds atoms to the table
  refine (Yields.forIn fun p _ _ => ?_).bind fun _ => ?_
  · refine (Yields.forIn fun args _ _ => ?_).bind fun _ => Yields.pure fun _ _ => trivial
    exact (intern_yields _).bind fun _ => Yields.pure fun _ _ => trivial
  refine (instantiateAll_yields pb pb.operators _ _ fun op _ args => action_numbered pb op args).bind
    fun actions => ?_
  refine (instantiateAll_yields pb pb.axioms _ _ fun ax _ args => axiomInstance_numbered pb ax args).bind
    fun axioms => ?_
  exact (finish_numbered pb actions axioms).imp (fun _ h => ⟨h.1.2, h.2⟩) fun _ _ _ h => h

end Grounder

/-- Every action and axiom of the frontier, kept or pending, mentions atoms of the table only. -/
def Frontier.Numbered (f : Frontier) (T : AtomTable) : Prop :=
  (∀ a ∈ f.actions ++ f.pendingActions, T.Covers a.atomIds) ∧
    ∀ ax ∈ f.axioms ++ f.pendingAxioms, T.Covers ax.atomIds

namespace Grounder

open GroundM

/-- Reaching an atom changes no instance of the frontier. -/
theorem reach_numbered (f : Frontier) (a : AtomId) :
    Yields f.Numbered (fun r T => r.1.Numbered T) (reach f a) := by
  unfold reach
  split
  · exact Yields.pure fun _ h => h
  · exact Yields.get.bind fun _ => Yields.pure fun _ h => h.1

/-- A round adds instances that mention atoms of the table only, and moves instances from pending
to kept. -/
theorem reachRound_numbered (pb : Problem) (first : Bool) (f : Frontier) :
    Yields f.Numbered (fun r T => r.1.Numbered T) (reachRound pb first f) := by
  unfold reachRound
  refine (instantiateSchemas_yields pb.operators
    (fun op => newBindings pb op.params op.pre f.reached first) (action pb) _ (fun _ _ _ => rfl)
    (fun op _ args _ => action_numbered pb op args)
    fun T h a ha => h.1 a (List.mem_append_right _ ha)).bind fun r => ?_
  obtain ⟨sa, pa⟩ := r
  refine (instantiateSchemas_yields pb.axioms
    (fun ax => newBindings pb ax.params ax.cond f.reached first) (axiomInstance pb) _
    (fun _ _ _ => rfl) (fun ax _ args _ => axiomInstance_numbered pb ax args)
    fun T h ax hax => h.1.2 ax (List.mem_append_right _ hax)).bind fun r => ?_
  obtain ⟨sx, px⟩ := r
  refine Yields.foldlM (fun _ (acc : Frontier × Nat) T => acc.1.Numbered T) _ (fun T h => ?_)
    fun _ acc a _ => ?_
  · -- the kept and pending instances are those of the frontier and those of the round
    obtain ⟨⟨⟨hA, hX⟩, -, -, hpa⟩, -, -, hpx⟩ := h
    refine ⟨fun a ha => ?_, fun ax hax => ?_⟩
    · simp only [List.mem_append, List.mem_filter] at ha
      rcases ha with (ha | ⟨ha, -⟩) | ⟨ha, -⟩
      · exact hA a (List.mem_append_left _ ha)
      · exact hpa a ha
      · exact hpa a ha
    · simp only [List.mem_append, List.mem_filter] at hax
      rcases hax with (hax | ⟨hax, -⟩) | ⟨hax, -⟩
      · exact hX ax (List.mem_append_left _ hax)
      · exact hpx ax hax
      · exact hpx ax hax
  · exact (reach_numbered acc.1 a).bind fun r => Yields.pure fun _ h => h.2

theorem reachRounds_numbered (pb : Problem) :
    ∀ (fuel : Nat) (first : Bool) (f : Frontier),
      Yields f.Numbered (fun f' T => f'.Numbered T) (reachRounds pb fuel first f)
  | 0, _, _ => Yields.pure fun _ h => h
  | n + 1, first, f => by
      simp only [reachRounds]
      refine (reachRound_numbered pb first f).bind fun r => ?_
      obtain ⟨f', count⟩ := r
      split
      · exact Yields.pure fun _ h => h.2
      · exact (reachRounds_numbered pb n false f').imp (fun _ h => h.2) fun _ _ _ h => h

/-- Grounding by reachability mentions atoms of its table only, and its initial state is as wide
as the table. -/
theorem groundReachable_numbered (pb : Problem) :
    Yields (fun _ => True) (fun r _ => r.1.atoms.Covers r.1.atomIds ∧ r.1.init.width = r.1.atoms.size)
      (groundReachable pb) := by
  unfold groundReachable
  refine (Yields.foldlM (fun _ f T => f.Numbered T) pb.init (fun _ _ => ⟨nofun, nofun⟩)
    fun _ f l _ => ?_).bind fun f => ?_
  · refine (atomOf_yields "init" l).bind fun a => ?_
    refine ((reach_numbered f a).imp (fun _ h => h.1) fun _ _ _ h => h).bind fun r => ?_
    exact Yields.pure fun _ h => h.2
  · refine ((reachRounds_numbered pb _ true f).imp (fun _ h => h.2) fun _ _ _ h => h).bind
      fun f' => ?_
    refine (finish_numbered pb _ _).imp (fun T h => ⟨fun a ha => ?_, fun ax hax => ?_⟩)
      fun _ _ _ h => h
    · exact h.2.1 a (List.mem_append_left _ ha)
    · exact h.2.2 ax (List.mem_append_left _ hax)

end Grounder

/-! ## Reachable states -/

/-- A ground problem that grounding builds, with either strategy, mentions atoms of its own table
only, and its initial state is as wide as that table. -/
theorem Problem.ground_numbered {pb : Problem} {strategy : GroundingStrategy} {G : GroundProblem}
    {warnings : List String} (h : pb.ground strategy = .ok (G, warnings)) :
    G.atoms.Covers G.atomIds ∧ G.init.width = G.atoms.size := by
  cases strategy with
  | naive =>
      obtain ⟨_, hG⟩ := (Grounder.groundNaive_numbered pb).run'_ok h
      exact hG
  | relaxedGraph =>
      obtain ⟨_, hG⟩ := (Grounder.groundReachable_numbered pb).run'_ok h
      exact hG

namespace GroundProblem

/-- A step of a problem that mentions atoms of its table only keeps a state as wide as the
table. -/
theorem width_successor {gp : GroundProblem} (hcov : gp.atoms.Covers gp.atomIds) {a : Action}
    (ha : a ∈ gp.actions) {s : State} (hs : s.width = gp.atoms.size) :
    (gp.successor s a).width = gp.atoms.size := by
  simp only [GroundProblem.atomIds, AtomTable.covers_append, AtomTable.covers_flatMap] at hcov
  obtain ⟨⟨-, hactions⟩, haxioms⟩ := hcov
  have hact := hactions a ha
  simp only [Action.atomIds, ConditionalEffect.atomIds, AtomTable.covers_append,
    AtomTable.covers_flatMap] at hact
  -- the action makes true atoms of the table, and so do the rules
  have hadd : ∀ x ∈ a.add ++ a.cond.flatMap (·.add), x < s.width := by
    rw [hs]
    simp only [List.mem_append, List.mem_flatMap]
    rintro x (hx | ⟨ce, hce, hx⟩)
    · exact hact.1.1.2 x hx
    · exact (hact.2 ce hce).1.2 x hx
  have hheads : ∀ ax ∈ gp.axioms, ax.atom < (a.apply s).width := by
    intro ax hax
    rw [Action.width_apply hadd, hs]
    exact (AtomTable.covers_cons.mp (haxioms ax hax)).1
  rw [successor, width_close hheads, Action.width_apply hadd, hs]

end GroundProblem

/-- Every ground problem that grounding builds, with either strategy, mentions atoms of its own
table only: in its goal, in the precondition, effects and conditional effects of every action, and
in the head and guard of every axiom. Every state that applicable actions reach from its initial
state is exactly as wide as the table, so two such states are equal exactly when the same atoms
are true in them. -/
theorem Problem.ground_states_have_full_width {pb : Problem} {strategy : GroundingStrategy}
    {G : GroundProblem} {warnings : List String} (h : pb.ground strategy = .ok (G, warnings)) :
    (∀ i ∈ G.atomIds, i < G.atoms.size) ∧
      (∀ as s, G.Runs G.init as s → s.width = G.atoms.size) ∧
      ∀ as bs s t, G.Runs G.init as s → G.Runs G.init bs t →
        (s = t ↔ ∀ i, s.isSet i = t.isSet i) := by
  obtain ⟨hcov, hinit⟩ := Problem.ground_numbered h
  -- every step keeps the width of the table, so every run from the initial state does
  have hstep : ∀ s a, s.width = G.atoms.size → a ∈ G.actions → a.isApplicable s = true →
      (G.successor s a).width = G.atoms.size := fun _ _ hs ha _ => G.width_successor hcov ha hs
  have hwidth : ∀ as s, G.Runs G.init as s → s.width = G.atoms.size := fun _ _ hrun =>
    hrun.preserves hstep hinit
  refine ⟨hcov, hwidth, fun as bs s t hs ht => ⟨fun hst _ => hst ▸ rfl, fun hset => ?_⟩⟩
  exact State.ext_of_isSet ((hwidth as s hs).trans (hwidth bs t ht).symm) fun i _ => hset i

/-- A lamp that can be switched on, and a room that is lit while some lamp is on. -/
def litRoomProblem : Problem where
  objects := [⟨"lamp", "object"⟩]
  predicates := [⟨"on", [⟨"x", "object"⟩]⟩, ⟨"lit", []⟩]
  operators := [{ name := "switch", params := [⟨"x", "object"⟩]
                  pre := .lit ⟨"on", [.var ⟨"x", "object"⟩], true⟩
                  eff := .lit ⟨"on", [.var ⟨"x", "object"⟩], false⟩ }]
  axioms := [{ pred := ⟨"lit", []⟩, params := []
               cond := .quant .any [⟨"x", "object"⟩] (.lit ⟨"on", [.var ⟨"x", "object"⟩], false⟩) }]
  goals := [.lit ⟨"lit", [], false⟩]

/-- Grounded naively, the lit room has every state as wide as its table. -/
theorem lit_room_states_have_full_width :
    ∃ G w, litRoomProblem.ground .naive = .ok (G, w) ∧
      (∀ i ∈ G.atomIds, i < G.atoms.size) ∧
      (∀ as s, G.Runs G.init as s → s.width = G.atoms.size) ∧
      ∀ as bs s t, G.Runs G.init as s → G.Runs G.init bs t →
        (s = t ↔ ∀ i, s.isSet i = t.isSet i) := by
  obtain ⟨G, w, h⟩ : ∃ G w, litRoomProblem.ground .naive = .ok (G, w) := ⟨_, _, by cbv⟩
  exact ⟨G, w, h, Problem.ground_states_have_full_width h⟩

end Pddl
