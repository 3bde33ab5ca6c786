import Pddl.Proofs.Ground.Guards
import Pddl.Proofs.Ground.Close
/-!
# Instances agree with evaluation

An instance of an operator is applicable exactly when its bound precondition evaluates to true,
and applying it makes false the atoms of the negative literals of its effect and then true those
of the positive ones, each literal counted when the prerequisites of the conditional effects
around it all evaluate to true. Universal effects count with all their instances over the
objects. The same holds of the guard of an axiom's instance and of the goal.

Evaluation has no value for a comparison, while instantiation folds comparisons of constants:
so applicability agrees with evaluation where the precondition has a value, and the effect
where every prerequisite has one (`instances_agree_with_evaluation`); an operator whose
precondition compares two numbers shows that nothing more holds
(`constant_comparison_precondition_has_no_value`).

The effect is read in three steps. Collecting it records its atoms, unconditional or under
their conjoined prerequisite (`collectEffects_yields`); the guards of the prerequisites then
drop, merge or keep each conditional part; applying the action deletes and then adds.
-/

namespace Pddl

open GroundM Condition

/-! ## Literals of an effect -/

/-- `l` is a literal of the effect under the prerequisites `ps` of the conditional effects that
enclose it, outermost first. A universal effect has the literals of its instances over the
objects, each in negation normal form. -/
inductive EffectLit (pb : Problem) : Condition → List Condition → Literal → Prop
  | lit (l : Literal) : EffectLit pb (.lit l) [] l
  | and {cs : List Condition} {c : Condition} {ps : List Condition} {l : Literal} :
      c ∈ cs → EffectLit pb c ps l → EffectLit pb (.and cs) ps l
  | when {p c : Condition} {ps : List Condition} {l : Literal} :
      EffectLit pb c ps l → EffectLit pb (.when p c) (p :: ps) l
  | all {vs : List Param} {body : Condition} {t : List Argument} {ps : List Condition}
      {l : Literal} :
      t ∈ pb.bindings vs → EffectLit pb ((body.bind vs t).simplify false) ps l →
        EffectLit pb (.quant .all vs body) ps l

namespace EffectLit

variable {pb : Problem} {ps : List Condition} {l : Literal}

theorem lit_iff {l' : Literal} : EffectLit pb (.lit l') ps l ↔ ps = [] ∧ l = l' := by
  constructor
  · rintro ⟨⟩
    exact ⟨rfl, rfl⟩
  · rintro ⟨rfl, rfl⟩
    exact .lit l

theorem and_iff {cs : List Condition} : EffectLit pb (.and cs) ps l ↔ ∃ c ∈ cs, EffectLit pb c ps l := by
  constructor
  · rintro ⟨⟩
    rename_i c hc h
    exact ⟨c, hc, h⟩
  · rintro ⟨c, hc, h⟩
    exact .and hc h

theorem when_iff {p c : Condition} :
    EffectLit pb (.when p c) ps l ↔ ∃ ps', ps = p :: ps' ∧ EffectLit pb c ps' l := by
  constructor
  · rintro ⟨⟩
    rename_i ps' h
    exact ⟨ps', rfl, h⟩
  · rintro ⟨ps', rfl, h⟩
    exact .when h

/-- A universal effect has the literals of the conjunction of its instances. -/
theorem all_iff {vs : List Param} {body : Condition} :
    EffectLit pb (.quant .all vs body) ps l ↔ EffectLit pb (.and (Grounder.expand pb vs body)) ps l := by
  rw [and_iff]
  constructor
  · rintro ⟨⟩
    rename_i t ht h
    exact ⟨_, List.mem_map.mpr ⟨t, ht, rfl⟩, h⟩
  · rintro ⟨c, hc, h⟩
    obtain ⟨t, ht, rfl⟩ := List.mem_map.mp hc
    exact .all ht h

theorem and_snoc_iff {cs : List Condition} {c : Condition} :
    EffectLit pb (.and (cs ++ [c])) ps l ↔ EffectLit pb (.and cs) ps l ∨ EffectLit pb c ps l := by
  simp only [and_iff, List.mem_append, List.mem_singleton, or_and_right, exists_or, exists_eq_left]

end EffectLit

/-- The atoms an effect makes true (`isDel` unset) or false in a state, with the atoms numbered
by `T`: those of its literals of that sign whose prerequisites all evaluate to true. -/
def EffectTargets (pb : Problem) (T : AtomTable) (s : State) (eff : Condition) (isDel : Bool)
    (i : AtomId) : Prop :=
  ∃ ps l, EffectLit pb eff ps l ∧ l.negated = isDel ∧
    (∀ p ∈ ps, p.evaluate pb (T.holdsIn s) = some true) ∧ T.Numbers l i

/-! ## Effect lists -/

/-- The added atoms, or with `isDel` the deleted ones. -/
def pick (isDel : Bool) (add del : List AtomId) : List AtomId := if isDel then del else add

namespace EffectLists

/-- The atoms the lists make true (`isDel` unset) or false in a state: the unconditional ones,
and those recorded under a prerequisite that evaluates to true. -/
def Targets (pb : Problem) (holds : String → List String → Bool) (e : EffectLists) (isDel : Bool)
    (i : AtomId) : Prop :=
  i ∈ pick isDel e.add e.del ∨ ∃ q ∈ e.cond, q.1.evaluate pb holds = some true ∧ i ∈ pick isDel q.2.1 q.2.2

variable {pb : Problem} {holds : String → List String → Bool}

theorem mem_pick_append {isDel d : Bool} {ad dl : List AtomId} {a i : AtomId} :
    i ∈ pick d (if isDel then ad else ad ++ [a]) (if isDel then dl ++ [a] else dl) ↔
      i ∈ pick d ad dl ∨ (d = isDel ∧ i = a) := by
  cases isDel <;> cases d <;> simp [pick]

/-- Recording under an existing prerequisite `p`: every entry keeps its prerequisite, and the
entries of `p` gain the atom. -/
theorem exists_mem_map_record {p : Condition} {isDel d : Bool} {a i : AtomId}
    (cond : List (Condition × List AtomId × List AtomId)) :
    (∃ q ∈ cond.map (fun x => if x.1 = p then
          (if isDel then (x.1, x.2.1, x.2.2 ++ [a]) else (x.1, x.2.1 ++ [a], x.2.2))
        else (x.1, x.2.1, x.2.2)),
        q.1.evaluate pb holds = some true ∧ i ∈ pick d q.2.1 q.2.2) ↔
      (∃ q ∈ cond, q.1.evaluate pb holds = some true ∧ i ∈ pick d q.2.1 q.2.2) ∨
        (∃ q ∈ cond, q.1 = p ∧ p.evaluate pb holds = some true ∧ d = isDel ∧ i = a) := by
  have hrec : ∀ x : Condition × List AtomId × List AtomId,
      let r := if x.1 = p then
          (if isDel then (x.1, x.2.1, x.2.2 ++ [a]) else (x.1, x.2.1 ++ [a], x.2.2))
        else (x.1, x.2.1, x.2.2)
      r.1 = x.1 ∧ (i ∈ pick d r.2.1 r.2.2 ↔ i ∈ pick d x.2.1 x.2.2 ∨ (x.1 = p ∧ d = isDel ∧ i = a)) := by
    intro x
    by_cases h : x.1 = p <;> cases isDel <;> cases d <;> simp [pick, h]
  simp only [List.mem_map]
  constructor
  · rintro ⟨_, ⟨x, hx, rfl⟩, hv, hi⟩
    obtain ⟨hfst, hmem⟩ := hrec x
    rw [hfst] at hv
    rcases hmem.mp hi with hi | ⟨hp, hd, rfl⟩
    · exact .inl ⟨x, hx, hv, hi⟩
    · exact .inr ⟨x, hx, hp, hp ▸ hv, hd, rfl⟩
  · rintro (⟨x, hx, hv, hi⟩ | ⟨x, hx, hp, hv, hd, rfl⟩)
    · obtain ⟨hfst, hmem⟩ := hrec x
      exact ⟨_, ⟨x, hx, rfl⟩, by rw [hfst]; exact hv, hmem.mpr (.inl hi)⟩
    · obtain ⟨hfst, hmem⟩ := hrec x
      exact ⟨_, ⟨x, hx, rfl⟩, by rw [hfst, hp]; exact hv, hmem.mpr (.inr ⟨hp, hd, rfl⟩)⟩

/-- Recording an atom under a prerequisite adds it to what the lists make true or false, when the
prerequisite evaluates to true. -/
theorem targets_push (e : EffectLists) (pre : Option Condition) (a : AtomId) (isDel d : Bool)
    (i : AtomId) :
    (e.push pre a isDel).Targets pb holds d i ↔
      e.Targets pb holds d i ∨ (d = isDel ∧ i = a ∧ ∀ p ∈ pre.toList, p.evaluate pb holds = some true) := by
  unfold push
  split
  · -- no prerequisite: the unconditional lists
    have h : ∀ x : EffectLists, (if isDel then { e with del := e.del ++ [a] } else { e with add := e.add ++ [a] }) = x →
        x.add = (if isDel then e.add else e.add ++ [a]) ∧ x.del = (if isDel then e.del ++ [a] else e.del) ∧
          x.cond = e.cond := by
      intro x hx
      subst hx
      cases isDel <;> simp
    obtain ⟨hadd, hdel, hcond⟩ := h _ rfl
    simp only [Targets, hadd, hdel, hcond, mem_pick_append, Option.toList_none, List.not_mem_nil,
      IsEmpty.forall_iff, implies_true, and_true]
    exact or_right_comm
  · rename_i p
    split
    · -- an entry of `p` exists and gains the atom
      rename_i hany
      obtain ⟨q₀, hq₀, hkey⟩ := List.any_eq_true.mp hany
      simp only [decide_eq_true_eq] at hkey
      have hexists : (∃ q ∈ e.cond, q.1 = p ∧ p.evaluate pb holds = some true ∧ d = isDel ∧ i = a) ↔
          (d = isDel ∧ i = a ∧ p.evaluate pb holds = some true) :=
        ⟨fun ⟨_, _, _, hv, hd, hi⟩ => ⟨hd, hi, hv⟩, fun ⟨hd, hi, hv⟩ => ⟨q₀, hq₀, hkey, hv, hd, hi⟩⟩
      simp only [Targets, Option.toList_some, List.mem_singleton, forall_eq]
      rw [exists_mem_map_record, hexists, or_assoc]
    · -- a new entry for `p`
      have hentry : ∀ x : Condition × List AtomId × List AtomId,
          (if isDel then (p, [], [a]) else (p, [a], [])) = x →
            x.1 = p ∧ (i ∈ pick d x.2.1 x.2.2 ↔ d = isDel ∧ i = a) := by
        intro x hx
        subst hx
        cases isDel <;> cases d <;> simp [pick]
      obtain ⟨h₁, h₂⟩ := hentry _ rfl
      simp only [Targets, List.mem_append, List.mem_singleton, Option.toList_some, forall_eq,
        or_and_right, exists_or, exists_eq_left, h₁, h₂]
      constructor
      · rintro (hi | hq | ⟨hv, hd, hi⟩)
        · exact .inl (.inl hi)
        · exact .inl (.inr hq)
        · exact .inr ⟨hd, hi, hv⟩
      · rintro ((hi | hq) | ⟨hd, hi, hv⟩)
        · exact .inl hi
        · exact .inr (.inl hq)
        · exact .inr (.inr ⟨hv, hd, hi⟩)

/-- Recording an atom records no prerequisite but the given one. -/
theorem key_of_mem_push {e : EffectLists} {pre : Option Condition} {a : AtomId} {isDel : Bool}
    {q : Condition × List AtomId × List AtomId} (hq : q ∈ (e.push pre a isDel).cond) :
    (∃ q' ∈ e.cond, q'.1 = q.1) ∨ q.1 ∈ pre.toList := by
  unfold push at hq
  split at hq
  · split at hq <;> exact .inl ⟨q, hq, rfl⟩
  · rename_i p
    split at hq
    · obtain ⟨⟨q', ad, dl⟩, hq', rfl⟩ := List.mem_map.mp hq
      refine .inl ⟨_, hq', ?_⟩
      dsimp only
      split <;> (try split) <;> rfl
    · rcases List.mem_append.mp hq with hq | hq
      · exact .inl ⟨q, hq, rfl⟩
      · rw [List.mem_singleton] at hq
        subst hq
        right
        split <;> simp

end EffectLists

theorem AtomTable.Numbers.unique {T : AtomTable} {l : Literal} {i j : AtomId} (hi : T.Numbers l i)
    (hj : T.Numbers l j) : i = j := by
  obtain ⟨names, hnames, hfi⟩ := hi
  obtain ⟨names', hnames', hfj⟩ := hj
  rw [hnames] at hnames'
  cases hnames'
  rw [hfi] at hfj
  exact Option.some.inj hfj

/-! ## Collecting an effect -/

/-- What collecting the effect `c` under the prerequisite `pre` into the lists `e` gives in a
state, with the atoms numbered by `T`: when every prerequisite of a literal of `c`, `pre`
included, has a value, and so does every prerequisite `e` records, then so does every
prerequisite `e'` records, and `e'` makes true or false what `e` did and the atoms of the
literals of `c` of that sign whose prerequisites all evaluate to true. -/
def Collected (pb : Problem) (T : AtomTable) (s : State) (c : Condition) (pre : Option Condition)
    (e e' : EffectLists) : Prop :=
  (∀ ps l, EffectLit pb c ps l → ∀ p ∈ pre.toList ++ ps, (p.evaluate pb (T.holdsIn s)).isSome) →
  (∀ q ∈ e.cond, (q.1.evaluate pb (T.holdsIn s)).isSome) →
    (∀ q ∈ e'.cond, (q.1.evaluate pb (T.holdsIn s)).isSome) ∧
    ∀ d i, e'.Targets pb (T.holdsIn s) d i ↔ e.Targets pb (T.holdsIn s) d i ∨
      ∃ ps l, EffectLit pb c ps l ∧ l.negated = d ∧
        (∀ p ∈ pre.toList ++ ps, p.evaluate pb (T.holdsIn s) = some true) ∧ T.Numbers l i

namespace Collected

variable {pb : Problem} {T : AtomTable} {s : State} {pre : Option Condition}

/-- An effect without literals changes nothing. -/
theorem of_no_lits {c : Condition} {e : EffectLists} (h : ∀ ps l, ¬ EffectLit pb c ps l) :
    Collected pb T s c pre e e :=
  fun _ he => ⟨he, fun d i => by simp [h]⟩

theorem congr {c c' : Condition} {e e' : EffectLists}
    (hc : ∀ ps l, EffectLit pb c ps l ↔ EffectLit pb c' ps l) (h : Collected pb T s c pre e e') :
    Collected pb T s c' pre e e' := by
  simp only [Collected, hc] at h
  exact h

/-- Collecting a literal records its atom under the prerequisite. -/
theorem push {l : Literal} {a : AtomId} {e : EffectLists} (ha : T.Numbers l a) :
    Collected pb T s (.lit l) pre e (e.push pre a l.negated) := by
  intro hvalued he
  have hpre := hvalued [] l (.lit l)
  rw [List.append_nil] at hpre
  refine ⟨fun q hq => ?_, fun d i => ?_⟩
  · rcases EffectLists.key_of_mem_push hq with ⟨q', hq', hkey⟩ | hkey
    · rw [← hkey]
      exact he q' hq'
    · exact hpre q.1 hkey
  · -- the literal's atom is `a` and no other
    have hnum : T.Numbers l i ↔ i = a := ⟨fun hi => hi.unique ha, fun h => h ▸ ha⟩
    rw [EffectLists.targets_push]
    simp only [EffectLit.lit_iff, and_assoc, exists_and_left, exists_eq_left, List.append_nil,
      hnum]
    constructor
    · rintro (h | ⟨rfl, rfl, hv⟩)
      · exact .inl h
      · exact .inr ⟨rfl, hv, rfl⟩
    · rintro (h | ⟨rfl, hv, rfl⟩)
      · exact .inl h
      · exact .inr ⟨rfl, rfl, hv⟩

/-- Collecting one more member `c` of a conjunction after the members `done`. -/
theorem snoc {done : List Condition} {c : Condition} {e acc acc' : EffectLists}
    (h₁ : Collected pb T s (.and done) pre e acc) (h₂ : Collected pb T s c pre acc acc') :
    Collected pb T s (.and (done ++ [c])) pre e acc' := by
  intro hvalued he
  obtain ⟨hacc, hsame⟩ := h₁ (fun ps l h => hvalued ps l (EffectLit.and_snoc_iff.mpr (.inl h))) he
  obtain ⟨hacc', hsame'⟩ := h₂ (fun ps l h => hvalued ps l (EffectLit.and_snoc_iff.mpr (.inr h))) hacc
  refine ⟨hacc', fun d i => ?_⟩
  rw [hsame', hsame]
  simp only [EffectLit.and_snoc_iff, or_and_right, exists_or, or_assoc]

/-- A conditional effect collects its body under a prerequisite `combined` that has a value,
true exactly when the enclosing prerequisites and `p` all evaluate to true, when these have
values. -/
theorem when {p c combined : Condition} {e e' : EffectLists}
    (hcomb : (∀ x ∈ pre.toList ++ [p], (x.evaluate pb (T.holdsIn s)).isSome) →
      (combined.evaluate pb (T.holdsIn s)).isSome ∧
        (combined.evaluate pb (T.holdsIn s) = some true ↔
          ∀ x ∈ pre.toList ++ [p], x.evaluate pb (T.holdsIn s) = some true))
    (h : Collected pb T s c (some combined) e e') : Collected pb T s (.when p c) pre e e' := by
  intro hvalued he
  -- the enclosing prerequisites and `p` come before the body's own around each literal
  have hsub : ∀ ps x, x ∈ pre.toList ++ [p] → x ∈ pre.toList ++ p :: ps := by
    intro ps x hx
    simp only [List.mem_append, List.mem_cons, List.not_mem_nil, or_false] at hx ⊢
    tauto
  have haround : ∀ ps l, EffectLit pb c ps l →
      (∀ x ∈ pre.toList ++ [p], (x.evaluate pb (T.holdsIn s)).isSome) ∧
        ∀ x ∈ ps, (x.evaluate pb (T.holdsIn s)).isSome := by
    intro ps l hl
    have hall := hvalued (p :: ps) l (.when hl)
    exact ⟨fun x hx => hall x (hsub ps x hx), fun x hx => hall x (by simp [hx])⟩
  obtain ⟨hcond, hsame⟩ := h (fun ps l hl x hx => by
    rcases List.mem_append.mp hx with hx | hx
    · rw [Option.toList_some, List.mem_singleton] at hx
      subst hx
      exact (hcomb (haround ps l hl).1).1
    · exact (haround ps l hl).2 x hx) he
  refine ⟨hcond, fun d i => ?_⟩
  rw [hsame]
  apply or_congr_right
  constructor
  · rintro ⟨ps, l, hl, hd, htrue, hi⟩
    have hin := (hcomb (haround ps l hl).1).2.mp (htrue combined (by simp))
    refine ⟨p :: ps, l, .when hl, hd, fun x hx => ?_, hi⟩
    simp only [List.mem_append, List.mem_cons] at hx
    rcases hx with hx | rfl | hx
    · exact hin x (List.mem_append_left _ hx)
    · exact hin x (by simp)
    · exact htrue x (List.mem_append_right _ hx)
  · rintro ⟨ps', l, hl, hd, htrue, hi⟩
    obtain ⟨ps, rfl, hbody⟩ := EffectLit.when_iff.mp hl
    have hcombined : combined.evaluate pb (T.holdsIn s) = some true :=
      (hcomb (haround ps l hbody).1).2.mpr fun x hx => htrue x (hsub ps x hx)
    refine ⟨ps, l, hbody, hd, fun x hx => ?_, hi⟩
    rcases List.mem_append.mp hx with hx | hx
    · rw [Option.toList_some, List.mem_singleton] at hx
      subst hx
      exact hcombined
    · exact htrue x (by simp [hx])

end Collected

/-- Conjoining two prerequisites that have values gives the conjunction of the values. -/
theorem evaluate_conjoin {pb : Problem} {holds : String → List String → Bool} {outer p : Condition}
    {o w : Bool} (ho : outer.evaluate pb holds = some o) (hp : p.evaluate pb holds = some w) :
    ((Condition.and [outer, p]).simplify false).evaluate pb holds = some (o && w) := by
  have h : (Condition.and [outer, p]).evaluate pb holds = some (o && w) := by
    have ho' : outer.evalIn pb holds [] = some o := ho
    have hp' : p.evalIn pb holds [] = some w := hp
    simp [Condition.evaluate, Condition.evalIn, Condition.evalAll, ho', hp']
  have hs := evalIn_simplify false _ h
  rw [Bool.xor_false] at hs
  exact hs

namespace Grounder

/-- Collecting the members of a conjunction one after another collects the conjunction. -/
theorem collectAll_yields {pb : Problem} {ctx : String} {P₀ : AtomTable → Prop} (n : Nat)
    (cs : List Condition) (pre : Option Condition) (e : EffectLists)
    (hc : ∀ c ∈ cs, ∀ (acc : EffectLists) (P : AtomTable → Prop),
      Yields P (fun e' T => ∀ s, Collected pb T s c pre acc e') (collectEffects pb ctx n c pre acc)) :
    Yields P₀ (fun e' T => ∀ s, Collected pb T s (.and cs) pre e e')
      (cs.foldlM (fun e c => collectEffects pb ctx n c pre e) e) :=
  Yields.foldlM (fun done e' T => ∀ s, Collected pb T s (.and done) pre e e') cs
    (fun T _ s => Collected.of_no_lits (by simp [EffectLit.and_iff])) fun done acc c hmem =>
      (hc c hmem acc _).imp (fun _ h => h) fun e' T hacc hc' s => (hacc s).snoc (hc' s)

/-- Collecting an effect with enough fuel gives what `Collected` says. -/
theorem collectEffects_yields (pb : Problem) (ctx : String) :
    ∀ {P₀ : AtomTable → Prop} (n : Nat) (c : Condition) (pre : Option Condition) (e : EffectLists),
      c.depth < n →
        Yields P₀ (fun e' T => ∀ s, Collected pb T s c pre e e') (collectEffects pb ctx n c pre e)
  | _, 0, _, _, _, hd => absurd hd (Nat.not_lt_zero _)
  | _, _ + 1, .lit l, pre, e, _ => by
      simp only [collectEffects]
      exact (atomOf_yields ctx l).bind fun a => Yields.pure fun T hT s => Collected.push hT.2
  | _, n + 1, .and cs, pre, e, hd => by
      simp only [collectEffects]
      refine collectAll_yields n cs pre e fun c hc acc _ => collectEffects_yields pb ctx n c pre acc ?_
      have := depth_le_depthAll hc
      simp only [depth] at hd
      omega
  | _, n + 1, .when p c, none, e, hd => by
      simp only [collectEffects]
      have hdc : c.depth < n := by
        simp only [depth] at hd
        omega
      refine (collectEffects_yields pb ctx n c (some p) e hdc).imp (fun _ h => h)
        fun e' T _ h s => Collected.when (fun hv => ⟨hv p (by simp), ?_⟩) (h s)
      simp
  | _, n + 1, .when p c, some outer, e, hd => by
      simp only [collectEffects]
      have hdc : c.depth < n := by
        simp only [depth] at hd
        omega
      refine (collectEffects_yields pb ctx n c _ e hdc).imp (fun _ h => h)
        fun e' T _ h s => Collected.when (fun hv => ?_) (h s)
      -- the conjoined prerequisite has the conjunction of the two values
      obtain ⟨o, ho⟩ := Option.isSome_iff_exists.mp (hv outer (by simp))
      obtain ⟨w, hw⟩ := Option.isSome_iff_exists.mp (hv p (by simp))
      rw [evaluate_conjoin ho hw]
      simp [ho, hw]
  | _, n + 1, .quant .all vs body, pre, e, hd => by
      simp only [collectEffects]
      refine (collectAll_yields n _ pre e fun c hc acc _ =>
        collectEffects_yields pb ctx n c pre acc ?_).imp
        (fun _ h => h) fun e' T _ h s => (h s).congr fun ps l => EffectLit.all_iff.symm
      -- an instance is no deeper than the body
      obtain ⟨t, -, rfl⟩ := List.mem_map.mp hc
      have := depth_simplify_le false (body.bind vs t)
      simp only [depth, Condition.bind, depth_subst] at hd this ⊢
      omega
  | _, _ + 1, .numEffect f, pre, e, _ => by
      simp only [collectEffects]
      have hnone : ∀ T s, Collected pb T s (.numEffect f) pre e e :=
        fun _ _ => Collected.of_no_lits (by rintro _ _ ⟨⟩)
      refine Yields.bind (Yields.modify fun _ => rfl) fun _ => ?_
      exact Yields.pure fun T _ => hnone T
  | _, _ + 1, .or _, _, _, _ => Yields.throw
  | _, _ + 1, .quant .any _ _, _, _, _ => Yields.throw
  | _, _ + 1, .not _, _, _, _ => Yields.throw
  | _, _ + 1, .compare _, _, _, _ => Yields.throw

end Grounder

/-! ## Applying an action -/

namespace State

theorem isSet_setTo_self (s : State) (a : AtomId) (v : Bool) : (s.setTo a v).isSet a = v := by
  unfold setTo isSet
  split
  · rename_i h
    simp [Array.set!_eq_setIfInBounds, Array.getD_eq_getD_getElem?, h]
  · split
    · rename_i h hv
      subst hv
      simp only [Array.set!_eq_setIfInBounds, Array.getD_eq_getD_getElem?,
        Array.getElem?_setIfInBounds, if_true, Array.size_append, Array.size_replicate]
      rw [if_pos (by omega)]
      rfl
    · rename_i h hv
      simp only [Bool.not_eq_true] at hv
      subst hv
      simp

theorem isSet_add_iff (s : State) (a x : AtomId) : (s.add a).isSet x = true ↔ a = x ∨ s.isSet x = true := by
  by_cases h : a = x
  · subst h
    simp [add, isSet_setTo_self]
  · simp [add, isSet_setTo_of_ne h, h]

theorem isSet_del_iff (s : State) (a x : AtomId) : (s.del a).isSet x = true ↔ a ≠ x ∧ s.isSet x = true := by
  by_cases h : a = x
  · subst h
    simp [del, isSet_setTo_self]
  · simp [isSet_del_of_ne h, h]

theorem isSet_foldl_add (i : AtomId) :
    ∀ (xs : List AtomId) (s : State), (xs.foldl add s).isSet i = true ↔ i ∈ xs ∨ s.isSet i = true
  | [], s => by simp
  | x :: xs, s => by
      rw [List.foldl_cons, isSet_foldl_add i xs, isSet_add_iff, List.mem_cons]
      constructor
      · rintro (h | rfl | h)
        · exact .inl (.inr h)
        · exact .inl (.inl rfl)
        · exact .inr h
      · rintro ((rfl | h) | h)
        · exact .inr (.inl rfl)
        · exact .inl h
        · exact .inr (.inr h)

theorem isSet_foldl_del (i : AtomId) :
    ∀ (xs : List AtomId) (s : State), (xs.foldl del s).isSet i = true ↔ s.isSet i = true ∧ i ∉ xs
  | [], s => by simp
  | x :: xs, s => by
      rw [List.foldl_cons, isSet_foldl_del i xs, isSet_del_iff, List.mem_cons, not_or]
      constructor
      · rintro ⟨⟨hne, h⟩, hxs⟩
        exact ⟨h, fun heq => hne heq.symm, hxs⟩
      · rintro ⟨h, hne, hxs⟩
        exact ⟨⟨fun heq => hne heq.symm, h⟩, hxs⟩

end State

/-- An atom is true after an action exactly when the action or one of its triggered conditional
effects adds it, or it was true and none of them deletes it. -/
theorem Action.isSet_apply (a : Action) (s : State) (i : AtomId) :
    (a.apply s).isSet i = true ↔
      (i ∈ a.add ∨ ∃ ce ∈ a.cond, ce.guard.holds s = true ∧ i ∈ ce.add) ∨
        (s.isSet i = true ∧ ¬ (i ∈ a.del ∨ ∃ ce ∈ a.cond, ce.guard.holds s = true ∧ i ∈ ce.del)) := by
  simp only [Action.apply, State.isSet_foldl_add, State.isSet_foldl_del, List.mem_append,
    List.mem_flatMap, Action.triggered, List.mem_filter, and_assoc]

/-! ## Instances of operators -/

/-- What the unconditional atoms and the conditional effects gathered so far make true (`isDel`
unset) or false in a state. -/
def accTargets (s : State) (acc : List AtomId × List AtomId × List ConditionalEffect) (isDel : Bool)
    (i : AtomId) : Prop :=
  i ∈ pick isDel acc.1 acc.2.1 ∨ ∃ ce ∈ acc.2.2, ce.guard.holds s = true ∧ i ∈ pick isDel ce.add ce.del

/-- The conditional parts `done` of the effect lists `effs` are settled into `acc`: in a state
where every prerequisite `effs` records has a value, `acc` makes true or false the unconditional
atoms of `effs` and those of the parts done whose prerequisite evaluates to true. -/
def Settled (pb : Problem) (effs : EffectLists) (done : List (Condition × List AtomId × List AtomId))
    (acc : List AtomId × List AtomId × List ConditionalEffect) (T : AtomTable) : Prop :=
  ∀ s, (∀ q ∈ effs.cond, (q.1.evaluate pb (T.holdsIn s)).isSome) → ∀ d i,
    accTargets s acc d i ↔ i ∈ pick d effs.add effs.del ∨
      ∃ q ∈ done, q.1.evaluate pb (T.holdsIn s) = some true ∧ i ∈ pick d q.2.1 q.2.2

theorem Guard.holds_of_isTrivial {g : Guard} (h : g.isTrivial = true) (s : State) : g.holds s = true := by
  obtain ⟨pos, neg, f⟩ := g
  simp only [Guard.isTrivial, Bool.and_eq_true, List.isEmpty_iff, Option.isNone_iff_eq_none] at h
  obtain ⟨⟨rfl, rfl⟩, rfl⟩ := h
  rfl

/-- What instantiating an operator with the arguments gives, with the atoms numbered by `T`.
Without an instance, the bound precondition never evaluates to true. An instance is applicable
exactly when the bound precondition evaluates to true, where it has a value; and when every
prerequisite of the effect has a value, applying the instance makes an atom true exactly when
the effect makes it true, or it was true and the effect does not make it false. -/
def ActionMeans (pb : Problem) (op : Operator) (args : List Argument) :
    Option Action → AtomTable → Prop
  | none, T => ∀ s, (op.pre.bind op.params args).evaluate pb (T.holdsIn s) ≠ some true
  | some a, T => ∀ s,
      (∀ v, (op.pre.bind op.params args).evaluate pb (T.holdsIn s) = some v → a.isApplicable s = v) ∧
      ((∀ ps l, EffectLit pb ((op.eff.bind op.params args).simplify false) ps l →
          ∀ p ∈ ps, (p.evaluate pb (T.holdsIn s)).isSome) →
        ∀ i, (a.apply s).isSet i = true ↔
          EffectTargets pb T s ((op.eff.bind op.params args).simplify false) false i ∨
            (s.isSet i = true ∧
              ¬ EffectTargets pb T s ((op.eff.bind op.params args).simplify false) true i))

theorem accTargets_merge {s : State} {acc : List AtomId × List AtomId × List ConditionalEffect}
    {ad dl : List AtomId} {d : Bool} {i : AtomId} :
    accTargets s (acc.1 ++ ad, acc.2.1 ++ dl, acc.2.2) d i ↔ accTargets s acc d i ∨ i ∈ pick d ad dl := by
  cases d <;> simp [accTargets, pick, or_assoc, or_comm]

theorem accTargets_keep {s : State} {acc : List AtomId × List AtomId × List ConditionalEffect}
    {g : Guard} {ad dl : List AtomId} {d : Bool} {i : AtomId} :
    accTargets s (acc.1, acc.2.1, acc.2.2 ++ [⟨g, Grounder.normalized ad, Grounder.normalized dl⟩]) d i ↔
      accTargets s acc d i ∨ (g.holds s = true ∧ i ∈ pick d ad dl) := by
  cases d <;> simp [accTargets, pick, Grounder.mem_normalized, or_and_right, exists_or, or_assoc]

/-- Settling one more conditional part `q`, given what the new accumulator makes true or false. -/
theorem Settled.snoc {pb : Problem} {effs : EffectLists}
    {done : List (Condition × List AtomId × List AtomId)}
    {acc acc' : List AtomId × List AtomId × List ConditionalEffect} {T : AtomTable}
    {q : Condition × List AtomId × List AtomId} (hq : q ∈ effs.cond) (h : Settled pb effs done acc T)
    (hstep : ∀ s, (q.1.evaluate pb (T.holdsIn s)).isSome → ∀ d i,
      accTargets s acc' d i ↔ accTargets s acc d i ∨
        (q.1.evaluate pb (T.holdsIn s) = some true ∧ i ∈ pick d q.2.1 q.2.2)) :
    Settled pb effs (done ++ [q]) acc' T := by
  intro s hvalued d i
  rw [hstep s (hvalued q hq) d i, h s hvalued d i]
  simp only [List.mem_append, List.mem_singleton, or_and_right, exists_or, exists_eq_left, or_assoc]

namespace Grounder

/-- The instance of an operator means what `ActionMeans` says. -/
theorem action_yields {Pre : AtomTable → Prop} (pb : Problem) (op : Operator) (args : List Argument) :
    Yields Pre (fun r T => ActionMeans pb op args r T) (action pb op args) := by
  unfold action
  refine (guard_yields pb op.name _).bind fun r => ?_
  rcases r with _ | pre
  · exact Yields.pure fun T hT s => hT.2 s
  · refine (collectEffects_yields pb op.name _ _ none {} (Nat.lt_succ_self _)).bind fun effs => ?_
    refine (Yields.foldlM (Settled pb effs) effs.cond (fun T _ s _ d i => ?_)
      fun done acc q hq => ?_).bind fun acc => ?_
    · simp [accTargets, pick]
    · -- one conditional part: dropped, merged or kept by its guard
      obtain ⟨p, ad, dl⟩ := q
      refine (guard_yields pb op.name p).bind fun r => ?_
      split
      · refine Yields.pure fun T hT => hT.1.snoc hq fun s _ d i => ?_
        exact (or_iff_left fun h => hT.2 s h.1).symm
      · rename_i g
        split
        · rename_i htriv
          refine Yields.pure fun T hT => hT.1.snoc hq fun s hv d i => ?_
          obtain ⟨v, hv⟩ := Option.isSome_iff_exists.mp hv
          have htrue := hT.2 s v hv
          rw [Guard.holds_of_isTrivial htriv] at htrue
          subst htrue
          rw [accTargets_merge, hv]
          simp
        · refine Yields.pure fun T hT => hT.1.snoc hq fun s hv d i => ?_
          obtain ⟨v, hv⟩ := Option.isSome_iff_exists.mp hv
          rw [accTargets_keep, hT.2 s v hv, hv]
          simp
    · obtain ⟨add, del, conds⟩ := acc
      refine Yields.pure fun T hT s => ⟨fun v hv => hT.1.1.2 s v hv, fun hvalued i => ?_⟩
      -- the collected lists make true or false the atoms the effect does
      obtain ⟨hkeys, hcollected⟩ := hT.1.2 s (by simpa using hvalued) (by simp)
      have hsettled := hT.2 s hkeys
      have hd : ∀ d, accTargets s (add, del, conds) d i ↔
          EffectTargets pb T s ((op.eff.bind op.params args).simplify false) d i := by
        intro d
        rw [hsettled d i]
        refine (hcollected d i).trans ?_
        simp [EffectLists.Targets, pick, EffectTargets]
      rw [Action.isSet_apply, ← hd false, ← hd true]
      simp [accTargets, pick, mem_normalized]

end Grounder

/-! ## Instances of axioms and the goal -/

/-- What the instance of an axiom means in a table: without one, the bound condition is never
true; an instance derives the atom of the axiom's predicate over the objects, under a guard with
the value of the bound condition wherever that has one. -/
def AxiomMeans (pb : Problem) (ax : Axiom) (args : List Argument) :
    Option GroundAxiom → AtomTable → Prop
  | none, T => Grounder.GuardMeans pb (ax.cond.bind ax.params args) none T
  | some r, T => T.Numbers { pred := ax.pred.name, args := args } r.atom ∧
      Grounder.GuardMeans pb (ax.cond.bind ax.params args) (some r.guard) T

namespace Grounder

theorem axiomInstance_yields {Pre : AtomTable → Prop} (pb : Problem) (ax : Axiom)
    (args : List Argument) :
    Yields Pre (fun r T => AxiomMeans pb ax args r T) (axiomInstance pb ax args) := by
  unfold axiomInstance
  refine (guard_yields pb ax.pred.name _).bind fun r => ?_
  rcases r with _ | g
  · exact Yields.pure fun T hT => hT.2
  · refine (atomOf_yields ax.pred.name _).bind fun a => ?_
    exact Yields.pure fun T hT => ⟨hT.2, hT.1.2⟩

theorem holds_unsatisfiable (s : State) : Guard.unsatisfiable.holds s = false := by
  simp [Guard.unsatisfiable, Guard.holds, Formula.holds, Formula.holdsAny]

/-- The goal of the finished problem has the value of the conjoined goals, in the problem's own
table, wherever they have one. -/
theorem finish_yields {Pre : AtomTable → Prop} (pb : Problem) (actions : List Action)
    (axioms : List GroundAxiom) :
    Yields Pre (fun r _ => ∀ s v,
        (Condition.and pb.goals).evaluate pb (r.1.atoms.holdsIn s) = some v → r.1.goal.holds s = v)
      (finish pb actions axioms) := by
  unfold finish
  refine (Yields.mapM fun l _ => atomOf_yields "init" l).bind fun _ => ?_
  refine (guard_yields pb "goal" _).bind fun r => ?_
  refine Yields.get.bind fun g => ?_
  refine Yields.lift.bind fun _ => Yields.pure fun T hT s v hv => ?_
  -- the guard's meaning carries over to the table read by `get`, which the problem keeps
  have hgoal := (hT.1.2.2 g.table (AtomTable.Extends.refl _)).2
  rcases r with _ | goal
  · cases v
    · exact holds_unsatisfiable s
    · exact absurd hv (hgoal s)
  · exact hgoal s v hv

end Grounder

/-- Instantiation agrees with evaluation in the lifted problem, in every table that extends the
one the instantiation leaves. An operator's instance is applicable where the bound precondition is
true and not where it is false, and applying it sets an atom exactly when a positive literal of
the effect targets it or the atom was set and no negative literal does, when every prerequisite
has a value; without an instance, the bound precondition is never true. An axiom's instance
derives its atom under a guard with the value of the bound condition, and the goal of the
finished problem has the value of the conjoined goals in the problem's table. -/
theorem instances_agree_with_evaluation (pb : Problem) :
    (∀ (op : Operator) (args : List Argument) (g g' : Grounder) (r : Option Action),
      (Grounder.action pb op args).run g = .ok (r, g') →
        ∀ T, g'.table.Extends T → ActionMeans pb op args r T) ∧
    (∀ (ax : Axiom) (args : List Argument) (g g' : Grounder) (r : Option GroundAxiom),
      (Grounder.axiomInstance pb ax args).run g = .ok (r, g') →
        ∀ T, g'.table.Extends T → AxiomMeans pb ax args r T) ∧
    (∀ (actions : List Action) (axioms : List GroundAxiom) (g g' : Grounder)
      (r : GroundProblem × List String),
      (Grounder.finish pb actions axioms).run g = .ok (r, g') →
        ∀ s v, (Condition.and pb.goals).evaluate pb (r.1.atoms.holdsIn s) = some v →
          r.1.goal.holds s = v) := by
  refine ⟨fun op args g g' r hrun => ?_, fun ax args g g' r hrun => ?_,
    fun actions axioms g g' r hrun => ?_⟩
  · exact (Grounder.action_yields pb op args g r g' (fun _ _ => trivial) hrun).2
  · exact (Grounder.axiomInstance_yields pb ax args g r g' (fun _ _ => trivial) hrun).2
  · exact (Grounder.finish_yields pb actions axioms g r g' (fun _ _ => trivial) hrun).2 g'.table
      (AtomTable.Extends.refl _)

/-- A switch that turns a lamp on when the power is on. -/
def switchOperator : Operator :=
  { name := "switch", params := [⟨"x", "object"⟩]
    eff := .when (.lit ⟨"powered", [], false⟩) (.lit ⟨"on", [.var ⟨"x", "object"⟩], false⟩) }

/-- The switch's instance for a lamp exists and means what the agreement says. -/
theorem switch_instance_agrees :
    ∃ a g', (Grounder.action {} switchOperator [.const ⟨"a", "object"⟩]).run {} =
        .ok (some a, g') ∧
      ActionMeans {} switchOperator [.const ⟨"a", "object"⟩] (some a) g'.table := by
  obtain ⟨a, g', hrun⟩ : ∃ a g', (Grounder.action {} switchOperator [.const ⟨"a", "object"⟩]).run {} =
      .ok (some a, g') := ⟨_, _, by cbv⟩
  exact ⟨a, g', hrun, (instances_agree_with_evaluation {}).1 switchOperator _ {} g' (some a) hrun _
    (AtomTable.Extends.refl _)⟩

/-- An operator whose precondition compares two numbers. -/
def comparingOperator : Operator :=
  { name := "o", params := [], pre := .compare ⟨.lt, .const 1, .const 2⟩ }

/-- Instantiation folds the comparison to true, so the instance applies in every state, while
the bound precondition has no value. -/
theorem constant_comparison_precondition_has_no_value :
    ∃ a g', (Grounder.action {} comparingOperator []).run {} = .ok (some a, g') ∧
      (∀ s, a.isApplicable s = true) ∧
      ∀ holds, (comparingOperator.pre.bind comparingOperator.params []).evaluate {} holds = none :=
  ⟨{ name := "o", args := [], cost := 0, pre := {}, add := [], del := [], cond := [] }, {}, by cbv,
    fun s => Guard.holds_of_isTrivial rfl s, fun _ => rfl⟩

end Pddl
