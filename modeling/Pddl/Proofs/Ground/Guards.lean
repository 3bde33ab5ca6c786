import Pddl.Ground.Instantiate
import Pddl.Proofs.Condition.Evaluate
/-!
# What the guards of instances mean

A ground atom holds in a state when the table numbers it and its number is set
(`AtomTable.holdsIn`). Instantiation only adds atoms at the end of the table, so a number it
hands out names the same atom in every later table. `GroundM.Yields Pre P x` says that every
successful run of `x`, from a table whose extensions all satisfy `Pre`, only adds atoms, and
returns a value satisfying `P` in every extension of the table it leaves; it is proved for each
function of the instantiator from the same judgement on the functions it calls.

Main results: the formula of a condition in negation normal form has the value of the
condition in every state where the condition has one (`formula_yields`), and the guard of any
condition holds exactly when the condition evaluates to true, where it has a value; a condition
whose guard is dropped never evaluates to true (`guard_yields`).
-/

namespace Pddl

namespace AtomTable

/-- `t'` keeps every atom of `t` at its number: it only adds atoms at the end. -/
def Extends (t t' : AtomTable) : Prop := t.atoms <+: t'.atoms

theorem Extends.refl (t : AtomTable) : t.Extends t := List.prefix_refl _

theorem Extends.trans {t₁ t₂ t₃ : AtomTable} (h₁ : t₁.Extends t₂) (h₂ : t₂.Extends t₃) :
    t₁.Extends t₃ :=
  List.IsPrefix.trans h₁ h₂

/-- An extension of the table numbers every atom of the table as it does. -/
theorem Extends.find?_eq {t t' : AtomTable} (h : t.Extends t') {a : GroundAtom} {i : AtomId}
    (ha : t.find? a = some i) : t'.find? a = some i := by
  obtain ⟨rest, hrest⟩ := h
  simp only [find?, List.idxOf?] at ha ⊢
  rw [← hrest, List.findIdx?_append, ha]
  rfl

theorem extends_intern (t : AtomTable) (a : GroundAtom) : t.Extends (t.intern a).2 := by
  unfold intern
  split
  · exact Extends.refl t
  · exact List.prefix_append _ _

/-- Interning an atom gives its number in the table it leaves. -/
theorem find?_intern (t : AtomTable) (a : GroundAtom) :
    (t.intern a).2.find? a = some (t.intern a).1 := by
  unfold intern
  split
  · assumption
  · rename_i hnone
    simp only [find?, List.idxOf?, List.findIdx?_append] at hnone ⊢
    rw [hnone]
    simp [size]

/-- Whether the atom of a predicate over object names is true in the state, with the atoms
numbered by the table; an atom the table does not number is false. -/
def holdsIn (t : AtomTable) (s : State) (pred : String) (names : List String) : Bool :=
  match t.find? ⟨pred, names⟩ with
  | some i => s.isSet i
  | none => false

/-- The table numbers the atom of the ground literal `l` with `i`. -/
def Numbers (t : AtomTable) (l : Literal) (i : AtomId) : Prop :=
  ∃ names, constNames? l.args = some names ∧ t.find? ⟨l.pred, names⟩ = some i

theorem Numbers.extend {t t' : AtomTable} (h : t.Extends t') {l : Literal} {i : AtomId}
    (hl : t.Numbers l i) : t'.Numbers l i := by
  obtain ⟨names, hnames, hfind⟩ := hl
  exact ⟨names, hnames, h.find?_eq hfind⟩

end AtomTable

/-- A literal that is not a fixed equality has the value of its atom. -/
theorem Condition.evaluate_lit {pb : Problem} {T : AtomTable} {s : State} {l : Literal}
    {i : AtomId} (hs : l.staticEquality = none) (hi : T.Numbers l i) :
    (Condition.lit l).evaluate pb (T.holdsIn s) = some (s.isSet i != l.negated) := by
  obtain ⟨names, hnames, hfind⟩ := hi
  simp only [Condition.evaluate, Condition.evalIn, Literal.subst_nil, hs, hnames, Option.map_some,
    AtomTable.holdsIn, hfind]

/-! ## The judgement -/

namespace GroundM

variable {α β : Type}

/-- Every successful run of `x`, from a grounder whose table has only extensions satisfying
`Pre`, only adds atoms to the table and returns a value satisfying `P` in every extension of the
table it leaves. -/
def Yields (Pre : AtomTable → Prop) (P : α → AtomTable → Prop) (x : GroundM α) : Prop :=
  ∀ g a g', (∀ T, g.table.Extends T → Pre T) → x.run g = .ok (a, g') →
    g.table.Extends g'.table ∧ ∀ T, g'.table.Extends T → P a T

variable {Pre : AtomTable → Prop}

theorem Yields.pure {P : α → AtomTable → Prop} {a : α} (h : ∀ T, Pre T → P a T) :
    Yields Pre P (Pure.pure a) := by
  intro g b g' hpre hrun
  cases hrun
  exact ⟨AtomTable.Extends.refl _, fun T hT => h T (hpre T hT)⟩

theorem Yields.bind {Q : α → AtomTable → Prop} {P : β → AtomTable → Prop} {x : GroundM α}
    {f : α → GroundM β} (hx : Yields Pre Q x) (hf : ∀ a, Yields (fun T => Pre T ∧ Q a T) P (f a)) :
    Yields Pre P (x >>= f) := by
  intro g b g₂ hpre hrun
  rw [StateT.run_bind] at hrun
  cases hx' : x.run g with
  | error e =>
      rw [hx'] at hrun
      cases hrun
  | ok p =>
      obtain ⟨a, g₁⟩ := p
      rw [hx'] at hrun
      obtain ⟨h₁, hq⟩ := hx g a g₁ hpre hx'
      obtain ⟨h₂, hp⟩ := hf a g₁ b g₂ (fun T hT => ⟨hpre T (h₁.trans hT), hq T hT⟩) hrun
      exact ⟨h₁.trans h₂, hp⟩

/-- The rule of consequence. -/
theorem Yields.imp {Pre' : AtomTable → Prop} {Q P : α → AtomTable → Prop} {x : GroundM α}
    (hx : Yields Pre Q x) (hpre : ∀ T, Pre' T → Pre T) (hpost : ∀ a T, Pre' T → Q a T → P a T) :
    Yields Pre' P x := by
  intro g a g' hpre' hrun
  obtain ⟨hext, hq⟩ := hx g a g' (fun T hT => hpre T (hpre' T hT)) hrun
  exact ⟨hext, fun T hT => hpost a T (hpre' T (hext.trans hT)) (hq T hT)⟩

theorem Yields.map {Q : α → AtomTable → Prop} {P : β → AtomTable → Prop} {x : GroundM α}
    {f : α → β} (hx : Yields Pre Q x) (hf : ∀ a T, Pre T → Q a T → P (f a) T) :
    Yields Pre P (f <$> x) := by
  rw [map_eq_pure_bind]
  exact hx.bind fun a => Yields.pure fun T hT => hf a T hT.1 hT.2

theorem Yields.throw {P : α → AtomTable → Prop} {e : GroundingError} :
    Yields Pre P (MonadExcept.throw e) := by
  intro g a g' _ hrun
  cases hrun

theorem Yields.foldlM_from {f : β → α → GroundM β} (I : List α → β → AtomTable → Prop) :
    ∀ {P₀ : AtomTable → Prop} (xs done : List α) (init : β), (∀ T, P₀ T → I done init T) →
      (∀ done b, ∀ x ∈ xs, Yields (I done b) (I (done ++ [x])) (f b x)) →
        Yields P₀ (I (done ++ xs)) (xs.foldlM f init)
  | _, [], done, init, h0, _ => by
      rw [List.foldlM_nil]
      exact Yields.pure fun T h => by simpa using h0 T h
  | _, x :: xs, done, init, h0, hf => by
      rw [List.foldlM_cons]
      refine ((hf done init x (.head _)).imp h0 fun _ _ _ h => h).bind fun b => ?_
      refine (Yields.foldlM_from I xs (done ++ [x]) b (fun T h => h.2)
        fun d b' y hy => hf d b' y (.tail _ hy)).imp (fun _ h => h) fun a T _ h => ?_
      simpa using h

/-- A fold yields an invariant indexed by the elements done, when it holds before the first and
each step carries it over one more element. -/
theorem Yields.foldlM {f : β → α → GroundM β} (I : List α → β → AtomTable → Prop) (xs : List α)
    {init : β} (h0 : ∀ T, Pre T → I [] init T)
    (hf : ∀ done b, ∀ x ∈ xs, Yields (I done b) (I (done ++ [x])) (f b x)) :
    Yields Pre (I xs) (xs.foldlM f init) := by
  simpa using Yields.foldlM_from I xs [] init h0 hf

/-- Reading the grounder gives a table whose extensions all satisfy the precondition. -/
theorem Yields.get :
    Yields Pre (fun g T => g.table.Extends T ∧ ∀ T', g.table.Extends T' → Pre T')
      (MonadState.get : GroundM Grounder) := by
  intro g a g' hpre hrun
  cases hrun
  exact ⟨AtomTable.Extends.refl _, fun T hT => ⟨hT, hpre⟩⟩

theorem Yields.lift {x : Except GroundingError α} :
    Yields Pre (fun _ _ => True) (StateT.lift x : GroundM α) := by
  intro g a g' _ hrun
  cases hx : x with
  | error e =>
      rw [hx] at hrun
      cases hrun
  | ok b =>
      rw [hx] at hrun
      cases hrun
      exact ⟨AtomTable.Extends.refl _, fun _ _ => trivial⟩

/-- A change of the grounder that keeps its table. -/
theorem Yields.modify {f : Grounder → Grounder} (hf : ∀ g, (f g).table = g.table) :
    Yields Pre (fun _ _ => True) (modify f : GroundM Unit) := by
  intro g a g' _ hrun
  cases hrun
  refine ⟨?_, fun _ _ => trivial⟩
  rw [hf]
  exact AtomTable.Extends.refl _

/-- Mapping yields, for each element and its image, what each call yields. -/
theorem Yields.mapM {f : α → GroundM β} {R : α → β → AtomTable → Prop} :
    ∀ {P₀ : AtomTable → Prop} {xs : List α}, (∀ x ∈ xs, Yields P₀ (R x) (f x)) →
      Yields P₀ (fun ys T => List.Forall₂ (fun x y => R x y T) xs ys) (xs.mapM f)
  | _, [], _ => by
      rw [List.mapM_nil]
      exact Yields.pure fun _ _ => .nil
  | P₀, x :: xs, h => by
      rw [List.mapM_cons]
      refine (h x (.head _)).bind fun y => ?_
      have hrest : Yields (fun T => P₀ T ∧ R x y T)
          (fun ys T => List.Forall₂ (fun x y => R x y T) xs ys) (xs.mapM f) :=
        Yields.mapM fun z hz => (h z (.tail _ hz)).imp (fun _ hT => hT.1) fun _ _ _ hr => hr
      exact hrest.bind fun ys => Yields.pure fun _ hT => .cons hT.1.2 hT.2

end GroundM

namespace Grounder

open GroundM Condition

/-! ## Atoms -/

theorem intern_yields {Pre : AtomTable → Prop} (a : GroundAtom) :
    Yields Pre (fun i T => T.find? a = some i) (intern a) := by
  intro g i g' _ hrun
  simp only [intern, StateT.run_modifyGet] at hrun
  cases hrun
  exact ⟨AtomTable.extends_intern g.table a, fun T hT => hT.find?_eq (AtomTable.find?_intern _ a)⟩

theorem constNames_eq : ∀ args : List Argument, constNames args = constNames? args
  | [] => rfl
  | .const o :: as => by simp only [constNames, constNames?, constNames_eq as]
  | .var _ :: _ => rfl

/-- The number of a literal's atom is the one the table gives it. -/
theorem atomOf_yields {Pre : AtomTable → Prop} (ctx : String) (l : Literal) :
    Yields Pre (fun i T => T.Numbers l i) (atomOf ctx l) := by
  unfold atomOf
  rw [constNames_eq]
  split
  · rename_i names hnames
    exact (intern_yields _).imp (fun _ h => h) fun i T _ hi => ⟨names, hnames, hi⟩
  · exact Yields.throw

end Grounder

/-! ## Formulas -/

/-- The formula has the value of the condition in every state where the condition has one, with
the atoms numbered by `T`. -/
def Formula.Means (pb : Problem) (c : Condition) (f : Formula) (T : AtomTable) : Prop :=
  ∀ s v, c.evaluate pb (T.holdsIn s) = some v → f.holds s = v

/-- Formulas that mean the members of a junction hold together as the junction evaluates. -/
theorem Formula.means_junction {pb : Problem} {T : AtomTable} {conj : Bool} :
    ∀ {cs : List Condition} {fs : List Formula}, List.Forall₂ (fun c f => f.Means pb c T) cs fs →
      ∀ s v, Condition.evalAll pb (T.holdsIn s) [] conj cs = some v →
        (if conj then Formula.holdsAll s fs else Formula.holdsAny s fs) = v
  | [], [], .nil, s, v, h => by
      simp only [Condition.evalAll, Option.some.injEq] at h
      subst h
      cases conj <;> rfl
  | c :: cs, f :: fs, .cons hcf hrest, s, v, h => by
      simp only [Condition.evalAll] at h
      obtain ⟨a, b, ha, hb, rfl⟩ := Condition.combine_eq_some_iff.mp h
      have hf : f.holds s = a := hcf s a ha
      have hfs := means_junction hrest s b hb
      cases conj
      · simp only [Bool.false_eq_true, if_false] at hfs ⊢
        rw [Formula.holdsAny, hf, hfs]
      · simp only [if_true] at hfs ⊢
        rw [Formula.holdsAll, hf, hfs]

namespace Grounder

open GroundM Condition

/-- The formula of a condition in which no fixed equality is left means the condition, whatever
the fuel: with too little, there is no formula. -/
theorem formula_yields {Pre : AtomTable → Prop} (pb : Problem) (ctx : String) :
    ∀ (n : Nat) (c : Condition), c.StaticFree →
      Yields Pre (fun f T => f.Means pb c T) (formula pb ctx n c)
  | 0, _, _ => Yields.throw
  | _ + 1, .lit l, hs => by
      simp only [formula]
      refine (atomOf_yields ctx l).bind fun i => Yields.pure fun T hT s v hv => ?_
      rw [evaluate_lit hs hT.2] at hv
      cases hv
      simp only [Formula.holds]
      cases s.isSet i <;> cases l.negated <;> rfl
  | n + 1, .and cs, hs => by
      simp only [formula]
      refine (Yields.mapM fun c hc => formula_yields pb ctx n c ?_).map
        fun fs T _ hfs s v hv => ?_
      · exact staticFreeAll_iff.mp hs c hc
      · simpa [Formula.holds] using Formula.means_junction hfs s v hv
  | n + 1, .or cs, hs => by
      simp only [formula]
      refine (Yields.mapM fun c hc => formula_yields pb ctx n c ?_).map
        fun fs T _ hfs s v hv => ?_
      · exact staticFreeAll_iff.mp hs c hc
      · simpa [Formula.holds] using Formula.means_junction hfs s v hv
  | n + 1, .quant q vs body, _ => by
      simp only [formula]
      refine (Yields.mapM fun d hd => formula_yields pb ctx n d ?_).bind
        fun fs => Yields.pure fun T hT s v hv => ?_
      · obtain ⟨t, -, rfl⟩ := List.mem_map.mp hd
        exact staticFree_simplify false _
      · -- the quantification has the value of the junction of its simplified instances
        rw [evaluate_quant] at hv
        have hinst := evalAll_simplifyAll false _ hv
        rw [Bool.xor_false, Bool.xor_false, simplifyAll_eq_map, List.map_map] at hinst
        have hmeans := Formula.means_junction hT.2 s v hinst
        cases q <;> simpa [Formula.holds] using hmeans
  | _ + 1, .compare _, _ => Yields.throw
  | _ + 1, .not _, _ => Yields.throw
  | _ + 1, .when .., _ => Yields.throw
  | _ + 1, .numEffect _, _ => Yields.throw

/-! ## Guards -/

theorem mem_normalized {as : List AtomId} {a : AtomId} : a ∈ normalized as ↔ a ∈ as := by
  simp [normalized, List.mem_eraseDups]

theorem entailsAll_normalized (s : State) (as : List AtomId) :
    s.entailsAll (normalized as) = s.entailsAll as := by
  unfold State.entailsAll
  apply Bool.eq_iff_iff.mpr
  simp only [List.all_eq_true, mem_normalized]

theorem entailsNone_normalized (s : State) (as : List AtomId) :
    s.entailsNone (normalized as) = s.entailsNone as := by
  unfold State.entailsNone
  apply Bool.eq_iff_iff.mpr
  simp only [List.all_eq_true, mem_normalized]

theorem holdsAll_eq_all (s : State) : ∀ fs : List Formula, Formula.holdsAll s fs = fs.all (·.holds s)
  | [] => rfl
  | f :: fs => by rw [Formula.holdsAll, holdsAll_eq_all s fs, List.all_cons]

theorem evaluate_and_conjuncts {pb : Problem} {holds : String → List String → Bool}
    (c : Condition) : (Condition.and (conjuncts c)).evaluate pb holds = c.evaluate pb holds := by
  unfold conjuncts
  split
  · rfl
  · simp only [Condition.evaluate, Condition.evalIn, Condition.evalAll, combine_unit_right]

theorem staticFree_of_mem_conjuncts {c d : Condition} (hc : c.StaticFree) (hd : d ∈ conjuncts c) :
    d.StaticFree := by
  unfold conjuncts at hd
  split at hd
  · exact staticFreeAll_iff.mp hc d hd
  · rw [List.mem_singleton.mp hd]
    exact hc

/-- Whether the atoms that must be true, those that must be false and the formulas gathered for
a guard all hold in the state. -/
def gatheredHolds (s : State) (acc : List AtomId × List AtomId × List Formula) : Bool :=
  s.entailsAll acc.1 && s.entailsNone acc.2.1 && Formula.holdsAll s acc.2.2

/-- Nothing gathered that asks an atom to be both true and false holds. -/
theorem gatheredHolds_of_mem_both {s : State} {pos neg : List AtomId} {rs : List Formula}
    {a : AtomId} (hpos : a ∈ pos) (hneg : a ∈ neg) : gatheredHolds s (pos, neg, rs) = false := by
  have hall : s.entailsAll pos = true → s.entailsNone neg = false := by
    intro hp
    have hset : s.isSet a = true := List.all_eq_true.mp hp a hpos
    simp only [State.entailsNone, List.all_eq_false]
    exact ⟨a, hneg, by simp [hset]⟩
  cases hp : s.entailsAll pos
  · simp [gatheredHolds, hp]
  · simp [gatheredHolds, hp, hall hp]

/-- What is gathered from the conjuncts `done` holds in a state exactly when those conjuncts all
evaluate to true there, where they have a value. -/
def Gathered (pb : Problem) (done : List Condition) (acc : List AtomId × List AtomId × List Formula)
    (T : AtomTable) : Prop :=
  ∀ s v, (Condition.and done).evaluate pb (T.holdsIn s) = some v → gatheredHolds s acc = v

theorem Gathered.nil {pb : Problem} {T : AtomTable} : Gathered pb [] ([], [], []) T := by
  intro s v hv
  cases hv
  rfl

/-- Gathering one more conjunct `d`, as a test `b` that has the value of `d`, keeps the parts
and the conjuncts in step. -/
theorem Gathered.snoc {pb : Problem} {T : AtomTable} {done : List Condition} {d : Condition}
    {acc acc' : List AtomId × List AtomId × List Formula} (b : State → Bool)
    (h : Gathered pb done acc T) (hd : ∀ s w, d.evaluate pb (T.holdsIn s) = some w → b s = w)
    (hacc : ∀ s, gatheredHolds s acc' = (gatheredHolds s acc && b s)) :
    Gathered pb (done ++ [d]) acc' T := by
  intro s v hv
  simp only [Condition.evaluate, Condition.evalIn, evalAll_append] at hv
  obtain ⟨w₁, w₂, h₁, h₂, rfl⟩ := combine_eq_some_iff.mp hv
  have hw₂ : d.evaluate pb (T.holdsIn s) = some w₂ := by
    simp only [Condition.evalAll, combine_unit_right] at h₂
    exact h₂
  rw [hacc, h s w₁ h₁, hd s w₂ hw₂, if_pos rfl]

/-- What the guard of `c` says, with the atoms numbered by `T`: a guard holds in a state exactly
when `c` evaluates to true there, where `c` has a value; when there is no guard, `c` never
evaluates to true. -/
def GuardMeans (pb : Problem) (c : Condition) : Option Guard → AtomTable → Prop
  | some g, T => ∀ s v, c.evaluate pb (T.holdsIn s) = some v → g.holds s = v
  | none, T => ∀ s, c.evaluate pb (T.holdsIn s) ≠ some true

theorem guardMeans_some {pb : Problem} {T : AtomTable} {c : Condition}
    {acc : List AtomId × List AtomId × List Formula} {g : Guard}
    (h : Gathered pb (conjuncts (c.simplify false)) acc T)
    (hg : ∀ s, g.holds s = gatheredHolds s acc) : GuardMeans pb c (some g) T := by
  intro s v hv
  have hs := evalIn_simplify false c hv
  rw [Bool.xor_false] at hs
  rw [hg, h s v ((evaluate_and_conjuncts _).trans hs)]

theorem guardMeans_none {pb : Problem} {T : AtomTable} {c : Condition}
    {acc : List AtomId × List AtomId × List Formula}
    (h : Gathered pb (conjuncts (c.simplify false)) acc T)
    (hf : ∀ s, gatheredHolds s acc = false) : GuardMeans pb c none T := by
  intro s hv
  have hs := evalIn_simplify false c hv
  rw [Bool.xor_false] at hs
  have htrue := h s true ((evaluate_and_conjuncts _).trans hs)
  rw [hf s] at htrue
  cases htrue

/-- The guard of a condition means the condition. -/
theorem guard_yields {Pre : AtomTable → Prop} (pb : Problem) (ctx : String) (c : Condition) :
    Yields Pre (fun r T => GuardMeans pb c r T) (guard pb ctx c) := by
  have hfree : ∀ d ∈ conjuncts (c.simplify false), d.StaticFree :=
    fun d hd => staticFree_of_mem_conjuncts (staticFree_simplify false c) hd
  unfold guard
  refine (Yields.foldlM (Gathered pb) _ (fun _ _ => Gathered.nil) fun done acc d hd => ?_).bind
    fun r => ?_
  · split
    · rename_i l
      refine (atomOf_yields ctx l).bind fun i => Yields.pure fun T hT => ?_
      refine Gathered.snoc (fun s => s.isSet i != l.negated) hT.1
        (fun s w hw => ?_) fun s => ?_
      · rw [evaluate_lit (hfree _ hd) hT.2] at hw
        exact Option.some.inj hw
      · cases hneg : l.negated <;>
          simp [gatheredHolds, State.entailsAll, State.entailsNone, Bool.and_assoc, Bool.and_comm,
            Bool.and_left_comm]
    · refine (formula_yields pb ctx _ _ (hfree _ hd)).bind fun f => Yields.pure fun T hT => ?_
      refine Gathered.snoc (fun s => f.holds s) hT.1 hT.2 fun s => ?_
      simp [gatheredHolds, holdsAll_eq_all, Bool.and_assoc]
  · obtain ⟨pos, neg, residual⟩ := r
    simp only
    split
    · -- an atom is asked to be both true and false
      rename_i hboth
      refine Yields.pure fun T hT => guardMeans_none hT.2 fun s => ?_
      obtain ⟨a, ha, hb⟩ := List.any_eq_true.mp hboth
      exact gatheredHolds_of_mem_both (mem_normalized.mp ha)
        (mem_normalized.mp (List.contains_iff_mem.mp hb))
    · split
      · -- no formula
        refine Yields.pure fun T hT => guardMeans_some hT.2 fun s => ?_
        simp [Guard.holds, gatheredHolds, entailsAll_normalized, entailsNone_normalized,
          Formula.holdsAll]
      · -- one formula, dropped when it is the empty disjunction
        split
        · rename_i hf
          cases hf
          refine Yields.pure fun T hT => guardMeans_none hT.2 fun s => ?_
          simp [gatheredHolds, Formula.holdsAll, Formula.holds, Formula.holdsAny]
        · refine Yields.pure fun T hT => guardMeans_some hT.2 fun s => ?_
          simp [Guard.holds, gatheredHolds, entailsAll_normalized, entailsNone_normalized,
            Formula.holdsAll]
      · -- several formulas, as one conjunction
        rw [if_neg (by simp)]
        refine Yields.pure fun T hT => guardMeans_some hT.2 fun s => ?_
        simp [Guard.holds, gatheredHolds, entailsAll_normalized, entailsNone_normalized,
          Formula.holds]

end Grounder

end Pddl
