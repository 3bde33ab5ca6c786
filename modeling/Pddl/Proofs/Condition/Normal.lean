import Pddl.Proofs.Condition.Evaluate
/-!
# Negation normal form

`simplify` puts a condition into negation normal form. This module states that form node by
node (`NnfNode`, and `Nnf` for every node of a condition): no explicit negation; no conjunction
or disjunction with a single member, with a member of its own kind or with the constant that
absorbs it; no equality literal and no comparison whose value is fixed; no quantification that
binds nothing or whose body its quantifier would make constant; no conditional effect with a
constant prerequisite or an empty effect.

Main statements:

* the normal form keeps every value the condition has, negated under the flag, quantifications
  over empty types included (`evaluate_simplify`);
* `simplify` produces the form (`simplify_nnf`);
* on the form, `simplify false` changes nothing (`simplify_false_of_nnf`) and `simplify true`
  is the De Morgan dual (`simplify_true_of_nnf`). Without conditional effects, which cannot be
  negated, the dual of a normal form is the normal form under the other flag (`dual_simplify`).
  Together: simplifying a normal form again without negation changes nothing, and with
  negation flips the flag (`simplify_fixed_and_flips`).
-/

namespace Pddl

/-! ## Involutions -/

@[simp] theorem Literal.negate_negate (l : Literal) : l.negate.negate = l := by
  simp [Literal.negate]

@[simp] theorem Quantifier.dual_dual (q : Quantifier) : q.dual.dual = q := by
  cases q <;> rfl

@[simp] theorem Comparator.negated_negated (c : Comparator) : c.negated.negated = c := by
  cases c <;> rfl

@[simp] theorem Comparison.negated_negated (c : Comparison) : c.negated.negated = c := by
  simp [Comparison.negated]

theorem Comparator.holds_negated (c : Comparator) (a b : Int) :
    c.negated.holds a b = !c.holds a b := by
  cases c <;> simp only [Comparator.negated, Comparator.holds] <;> grind

/-! ## Values fixed without a binding -/

/-- An equality literal whose value does not depend on a binding: between two objects, or
between a variable and itself. -/
def Literal.FixedEquality (l : Literal) : Prop :=
  l.pred = equalityName ∧
    ((∃ x y, l.args = [.const x, .const y]) ∨ ∃ x y, l.args = [.var x, .var y] ∧ x.name = y.name)

/-- `staticEquality` has a value exactly for the equality literals with a fixed value. -/
theorem Literal.staticEquality_eq_none_iff (l : Literal) :
    l.staticEquality = none ↔ ¬ l.FixedEquality := by
  obtain ⟨pred, args, negated⟩ := l
  simp only [Literal.staticEquality, Literal.FixedEquality]
  by_cases hp : pred = equalityName
  · simp only [hp, if_true, true_and]
    rcases args with _ | ⟨a, _ | ⟨b, _ | ⟨c, rest⟩⟩⟩
    · simp
    · cases a <;> simp
    · cases a <;> cases b
      · simp
      · simp
      · simp
      · rename_i x y
        by_cases hxy : x.name = y.name <;> simp [hxy]
    · cases a <;> cases b <;> simp
  · simp [hp]

theorem Comparison.constValue?_eq_none_iff (c : Comparison) :
    c.constValue? = none ↔ c.lhs.constValue? = none ∨ c.rhs.constValue? = none := by
  unfold Comparison.constValue?
  cases c.lhs.constValue? <;> cases c.rhs.constValue? <;> simp

/-- Negating a comparison negates its fixed value, and keeps it when there is none. -/
theorem Comparison.constValue?_negated (c : Comparison) :
    c.negated.constValue? = c.constValue?.map (!·) := by
  simp only [Comparison.constValue?, Comparison.negated]
  split <;> simp [Comparator.holds_negated]

namespace Condition

@[simp] theorem isTautology_iff {c : Condition} : c.isTautology = true ↔ c = tautology :=
  ⟨eq_tautology_of_isTautology, fun h => h ▸ rfl⟩

@[simp] theorem isContradiction_iff {c : Condition} :
    c.isContradiction = true ↔ c = contradiction :=
  ⟨eq_contradiction_of_isContradiction, fun h => h ▸ rfl⟩

/-! ## Properties of every node -/

mutual

/-- Every node of the condition satisfies `P`: the condition itself and, through the members of
sets, negated conditions, bodies of quantifications and both parts of conditional effects,
every condition inside it. -/
def Everywhere (P : Condition → Prop) : Condition → Prop
  | .lit l => P (.lit l)
  | .and cs => P (.and cs) ∧ EverywhereAll P cs
  | .or cs => P (.or cs) ∧ EverywhereAll P cs
  | .not c => P (.not c) ∧ Everywhere P c
  | .quant q vs c => P (.quant q vs c) ∧ Everywhere P c
  | .when p c => P (.when p c) ∧ Everywhere P p ∧ Everywhere P c
  | .numEffect e => P (.numEffect e)
  | .compare c => P (.compare c)

/-- Every node of every condition of the list satisfies `P`. -/
def EverywhereAll (P : Condition → Prop) : List Condition → Prop
  | [] => True
  | c :: cs => Everywhere P c ∧ EverywhereAll P cs

end

section Everywhere

variable {P : Condition → Prop}

@[simp] theorem everywhereAll_iff {cs : List Condition} :
    EverywhereAll P cs ↔ ∀ c ∈ cs, c.Everywhere P := by
  induction cs with
  | nil => simp [EverywhereAll]
  | cons c cs ih => simp [EverywhereAll, ih]

theorem everywhere_build {k : Junction} {cs : List Condition} :
    (k.build cs).Everywhere P ↔ P (k.build cs) ∧ ∀ c ∈ cs, c.Everywhere P := by
  cases k <;> simp [Junction.build, Everywhere]

theorem Everywhere.self {c : Condition} (h : c.Everywhere P) : P c := by
  cases c with
  | lit => exact h
  | and => exact h.1
  | or => exact h.1
  | not => exact h.1
  | quant => exact h.1
  | when => exact h.1
  | numEffect => exact h
  | compare => exact h

mutual

theorem Everywhere.mono {Q : Condition → Prop} (hPQ : ∀ n, P n → Q n) :
    ∀ c : Condition, c.Everywhere P → c.Everywhere Q
  | .lit _, h => hPQ _ h
  | .and cs, h => ⟨hPQ _ h.1, EverywhereAll.mono hPQ cs h.2⟩
  | .or cs, h => ⟨hPQ _ h.1, EverywhereAll.mono hPQ cs h.2⟩
  | .not c, h => ⟨hPQ _ h.1, Everywhere.mono hPQ c h.2⟩
  | .quant _ _ c, h => ⟨hPQ _ h.1, Everywhere.mono hPQ c h.2⟩
  | .when p c, h => ⟨hPQ _ h.1, Everywhere.mono hPQ p h.2.1, Everywhere.mono hPQ c h.2.2⟩
  | .numEffect _, h => hPQ _ h
  | .compare _, h => hPQ _ h

theorem EverywhereAll.mono {Q : Condition → Prop} (hPQ : ∀ n, P n → Q n) :
    ∀ cs : List Condition, EverywhereAll P cs → EverywhereAll Q cs
  | [], _ => trivial
  | c :: cs, h => ⟨Everywhere.mono hPQ c h.1, EverywhereAll.mono hPQ cs h.2⟩

end

end Everywhere

/-! ## The normal form -/

/-- What negation normal form asks of one node, its parts aside. -/
def NnfNode : Condition → Prop
  | .lit l => ¬ l.FixedEquality
  | .and cs => cs.length ≠ 1 ∧ ∀ c ∈ cs, (∀ ds, c ≠ .and ds) ∧ c ≠ contradiction
  | .or cs => cs.length ≠ 1 ∧ ∀ c ∈ cs, (∀ ds, c ≠ .or ds) ∧ c ≠ tautology
  | .not _ => False
  | .quant q vs c => vs ≠ [] ∧ (q = .all → c ≠ tautology) ∧ (q = .any → c ≠ contradiction)
  | .when p c => p ≠ tautology ∧ p ≠ contradiction ∧ c ≠ tautology
  | .numEffect _ => True
  | .compare c => c.lhs.constValue? = none ∨ c.rhs.constValue? = none

/-- Negation normal form, at every node. -/
abbrev Nnf (c : Condition) : Prop := c.Everywhere NnfNode

/-- The condition has no conditional effect. -/
abbrev WhenFree (c : Condition) : Prop := c.Everywhere fun n => ∀ p e, n ≠ .when p e

theorem nnf_tautology : tautology.Nnf := by
  simp [tautology, Everywhere, NnfNode]

theorem nnf_contradiction : contradiction.Nnf := by
  simp [contradiction, Everywhere, NnfNode]

theorem Nnf.ne_not {c : Condition} (h : c.Nnf) : ∀ d, c ≠ .not d := by
  rintro d rfl
  exact h.1

end Condition

namespace Junction

open Condition

/-- A set of kind `k` keeps the member as it is: the member is neither a set of kind `k` nor the
constant that absorbs the set. -/
def Keeps (k : Junction) (c : Condition) : Prop := k.members? c = none ∧ k.absorbs c = false

theorem keeps_conj {c : Condition} :
    Junction.conj.Keeps c ↔ (∀ ds, c ≠ .and ds) ∧ c ≠ contradiction := by
  cases c with
  | or cs => cases cs <;> simp [Keeps, members?, absorbs, isContradiction, contradiction]
  | _ => simp [Keeps, members?, absorbs, isContradiction, contradiction]

theorem keeps_disj {c : Condition} :
    Junction.disj.Keeps c ↔ (∀ ds, c ≠ .or ds) ∧ c ≠ tautology := by
  cases c with
  | and cs => cases cs <;> simp [Keeps, members?, absorbs, isTautology, tautology]
  | _ => simp [Keeps, members?, absorbs, isTautology, tautology]

/-- A set node is in normal form when it has not a single member and keeps each of them. -/
theorem nnfNode_build (k : Junction) (cs : List Condition) :
    (k.build cs).NnfNode ↔ cs.length ≠ 1 ∧ ∀ c ∈ cs, k.Keeps c := by
  cases k <;> simp [build, NnfNode, keeps_conj, keeps_disj]

theorem flatten_of_keeps {k : Junction} :
    ∀ {cs : List Condition}, (∀ c ∈ cs, k.Keeps c) → k.flatten cs = some cs
  | [], _ => rfl
  | c :: cs, h => by
      obtain ⟨hm, ha⟩ := h c (.head _)
      simp [flatten, hm, ha, flatten_of_keeps fun c' hc' => h c' (.tail _ hc')]

/-- A set that keeps its members, and has not exactly one, is already normalized. -/
theorem normalize_of_keeps {k : Junction} {cs : List Condition} (hlen : cs.length ≠ 1)
    (h : ∀ c ∈ cs, k.Keeps c) : k.normalize cs = k.build cs := by
  unfold normalize
  rw [flatten_of_keeps h]
  match cs, hlen with
  | [], _ => rfl
  | [_], hlen => exact absurd rfl hlen
  | _ :: _ :: _, _ => rfl

theorem normalize_of_nnfNode {k : Junction} {cs : List Condition} (h : (k.build cs).NnfNode) :
    k.normalize cs = k.build cs :=
  normalize_of_keeps ((nnfNode_build k cs).mp h).1 ((nnfNode_build k cs).mp h).2

/-- Each element of a flattened set is an element of the given ones that the set keeps, or a
member of one of them that is a set of the same kind. -/
theorem mem_flatten_keeps {k : Junction} :
    ∀ {es flat : List Condition}, k.flatten es = some flat →
      ∀ x ∈ flat, (x ∈ es ∧ k.Keeps x) ∨ ∃ nested, k.build nested ∈ es ∧ x ∈ nested
  | [], flat, h => by
      simp only [flatten, Option.some.injEq] at h
      subst h
      simp
  | e :: es, flat, h => by
      simp only [flatten] at h
      have hrest : ∀ rest, k.flatten es = some rest → ∀ x ∈ rest,
          (x ∈ e :: es ∧ k.Keeps x) ∨ ∃ nested, k.build nested ∈ e :: es ∧ x ∈ nested := by
        intro rest hr x hx
        rcases mem_flatten_keeps hr x hx with ⟨hx, hk⟩ | ⟨nested, hn, hx⟩
        · exact .inl ⟨.tail _ hx, hk⟩
        · exact .inr ⟨nested, .tail _ hn, hx⟩
      split at h
      · rename_i nested hn
        obtain ⟨rest, hr, rfl⟩ := Option.map_eq_some_iff.mp h
        intro x hx
        rcases List.mem_append.mp hx with hx | hx
        · exact .inr ⟨nested, eq_build_of_members? hn ▸ .head _, hx⟩
        · exact hrest rest hr x hx
      · rename_i hm
        split at h
        · cases h
        · rename_i ha
          obtain ⟨rest, hr, rfl⟩ := Option.map_eq_some_iff.mp h
          intro x hx
          rcases List.mem_cons.mp hx with rfl | hx
          · exact .inl ⟨.head _, hm, Bool.eq_false_iff.mpr ha⟩
          · exact hrest rest hr x hx

/-- What normalizing gives: the constant of the dual kind when an element absorbs the set, the
flattened element when there is one, and otherwise the set of the flattened elements. -/
theorem normalize_spec (k : Junction) (es : List Condition) :
    (k.flatten es = none ∧ k.normalize es = k.dual.build []) ∨
      (∃ e, k.flatten es = some [e] ∧ k.normalize es = e) ∨
      ∃ flat, k.flatten es = some flat ∧ flat.length ≠ 1 ∧ k.normalize es = k.build flat := by
  unfold normalize
  split
  · rename_i hf
    exact .inl ⟨hf, rfl⟩
  · rename_i e hf
    exact .inr (.inl ⟨e, hf, rfl⟩)
  · rename_i flat hsingle hf
    refine .inr (.inr ⟨flat, hf, fun hl => ?_, rfl⟩)
    obtain ⟨e, rfl⟩ := List.length_eq_one_iff.mp hl
    exact hsingle e rfl

/-- The flattened elements of conditions in normal form are in normal form, and the set keeps
them. -/
theorem nnf_keeps_of_mem_flatten {k : Junction} {es flat : List Condition}
    (h : ∀ e ∈ es, e.Nnf) (hf : k.flatten es = some flat) : ∀ x ∈ flat, x.Nnf ∧ k.Keeps x := by
  intro x hx
  rcases mem_flatten_keeps hf x hx with ⟨hx, hk⟩ | ⟨nested, hn, hx⟩
  · exact ⟨h x hx, hk⟩
  · obtain ⟨hnode, hall⟩ := everywhere_build.mp (h _ hn)
    exact ⟨hall x hx, ((nnfNode_build k nested).mp hnode).2 x hx⟩

/-- Normalizing conditions in normal form gives a condition in normal form. -/
theorem nnf_normalize (k : Junction) {es : List Condition} (h : ∀ e ∈ es, e.Nnf) :
    (k.normalize es).Nnf := by
  rcases normalize_spec k es with ⟨-, hn⟩ | ⟨e, hf, hn⟩ | ⟨flat, hf, hlen, hn⟩ <;> rw [hn]
  · cases k
    · exact nnf_contradiction
    · exact nnf_tautology
  · exact (nnf_keeps_of_mem_flatten h hf e (.head _)).1
  · have hflat := nnf_keeps_of_mem_flatten h hf
    exact everywhere_build.mpr
      ⟨(nnfNode_build k flat).mpr ⟨hlen, fun x hx => (hflat x hx).2⟩, fun x hx => (hflat x hx).1⟩

end Junction

namespace Condition

/-! ## `simplify` produces the normal form -/

/-- A simplified quantification is its simplified body when it binds nothing or its quantifier
(dual under negation) makes that body constant, and otherwise a quantification of that body. -/
theorem simplify_quant_eq (neg : Bool) (q : Quantifier) (vs : List Param) (c : Condition) :
    (Condition.quant q vs c).simplify neg =
      if vs = [] ∨ (c.simplify neg = tautology ∧ (if neg then q.dual else q) = .all) ∨
          (c.simplify neg = contradiction ∧ (if neg then q.dual else q) = .any)
      then c.simplify neg else .quant (if neg then q.dual else q) vs (c.simplify neg) := by
  simp only [simplify, Bool.or_eq_true, List.isEmpty_iff, Bool.and_eq_true, isTautology_iff,
    isContradiction_iff, beq_iff_eq]
  generalize (if neg = true then q.dual else q) = q'
  by_cases hc : vs = [] ∨ (c.simplify neg = tautology ∧ q' = .all)
  · rw [if_pos hc, if_pos (hc.elim .inl (.inr ∘ .inl))]
  · by_cases hf : c.simplify neg = contradiction ∧ q' = .any
    · rw [if_neg hc, if_pos hf, if_pos (.inr (.inr hf))]
    · rw [if_neg hc, if_neg hf, if_neg]
      rintro (hv | ht | hf')
      · exact hc (.inl hv)
      · exact hc (.inr ht)
      · exact hf hf'

mutual

/-- `simplify` gives a condition in negation normal form. -/
theorem simplify_nnf : ∀ (neg : Bool) (c : Condition), (c.simplify neg).Nnf
  | neg, .lit l => by
      simp only [simplify]
      split
      · exact nnf_tautology
      · exact nnf_contradiction
      · rename_i hs
        exact (Literal.staticEquality_eq_none_iff _).mp hs
  | neg, .and cs => by
      simp only [simplify]
      exact Junction.nnf_normalize _ (everywhereAll_iff.mp (simplifyAll_nnf neg cs))
  | neg, .or cs => by
      simp only [simplify]
      exact Junction.nnf_normalize _ (everywhereAll_iff.mp (simplifyAll_nnf neg cs))
  | neg, .not c => simplify_nnf (!neg) c
  | neg, .quant q vs c => by
      have hin := simplify_nnf neg c
      rw [simplify_quant_eq]
      generalize (if neg = true then q.dual else q) = q'
      split
      · exact hin
      · rename_i hkeep
        simp only [not_or, not_and] at hkeep
        exact ⟨⟨hkeep.1, fun hq ht => hkeep.2.1 ht hq, fun hq hf => hkeep.2.2 hf hq⟩, hin⟩
  | _, .when p c => by
      have hp := simplify_nnf false p
      have hc := simplify_nnf false c
      simp only [simplify]
      split
      · exact nnf_tautology
      · rename_i hconst
        split
        · exact hc
        · rename_i htaut
          simp only [Bool.or_eq_true, isContradiction_iff, isTautology_iff, not_or] at hconst htaut
          exact ⟨⟨htaut, hconst.1, hconst.2⟩, hp, hc⟩
  | _, .numEffect _ => trivial
  | neg, .compare c => by
      simp only [simplify]
      split
      · exact nnf_tautology
      · exact nnf_contradiction
      · rename_i hs
        exact (Comparison.constValue?_eq_none_iff _).mp hs

theorem simplifyAll_nnf (neg : Bool) :
    ∀ cs : List Condition, EverywhereAll NnfNode (simplifyAll neg cs)
  | [] => trivial
  | c :: cs => ⟨simplify_nnf neg c, simplifyAll_nnf neg cs⟩

end

/-! ## `simplify` on the normal form -/

/-- A conditional effect in normal form, whose parts `simplify` leaves as they are, is left as it
is under either flag. -/
theorem simplify_when_of_nnfNode {p c : Condition} (neg : Bool) (hp : p.simplify false = p)
    (hc : c.simplify false = c) (h : (Condition.when p c).NnfNode) :
    (Condition.when p c).simplify neg = .when p c := by
  obtain ⟨hpt, hpf, hct⟩ := h
  have hpt' : p.isTautology = false := Bool.eq_false_iff.mpr (mt isTautology_iff.mp hpt)
  have hpf' : p.isContradiction = false := Bool.eq_false_iff.mpr (mt isContradiction_iff.mp hpf)
  have hct' : c.isTautology = false := Bool.eq_false_iff.mpr (mt isTautology_iff.mp hct)
  simp [simplify, hp, hc, hpt', hpf', hct']

mutual

/-- Simplifying a condition in normal form without negation changes nothing. -/
theorem simplify_false_of_nnf : ∀ (c : Condition), c.Nnf → c.simplify false = c
  | .lit l, h => by
      have hs : l.staticEquality = none := (Literal.staticEquality_eq_none_iff l).mpr h
      simp [simplify, hs]
  | .and cs, h => by
      simp only [simplify, simplifyAll_false_of_nnf cs h.2]
      exact Junction.normalize_of_nnfNode h.1
  | .or cs, h => by
      simp only [simplify, simplifyAll_false_of_nnf cs h.2]
      exact Junction.normalize_of_nnfNode h.1
  | .not _, h => h.1.elim
  | .quant q vs c, h => by
      obtain ⟨⟨hvs, hall, hany⟩, hc⟩ := h
      rw [simplify_quant_eq, simplify_false_of_nnf c hc, if_neg]
      · rfl
      · rintro (hv | ⟨ht, hq⟩ | ⟨hf, hq⟩)
        · exact hvs hv
        · exact hall hq ht
        · exact hany hq hf
  | .when p c, h =>
      simplify_when_of_nnfNode false (simplify_false_of_nnf p h.2.1) (simplify_false_of_nnf c h.2.2)
        h.1
  | .numEffect _, _ => rfl
  | .compare c, h => by
      have hs : c.constValue? = none := (Comparison.constValue?_eq_none_iff c).mpr h
      simp [simplify, hs]

theorem simplifyAll_false_of_nnf :
    ∀ (cs : List Condition), EverywhereAll NnfNode cs → simplifyAll false cs = cs
  | [], _ => rfl
  | c :: cs, h => by
      rw [simplifyAll, simplify_false_of_nnf c h.1, simplifyAll_false_of_nnf cs h.2]

end

mutual

/-- The De Morgan dual of a condition in normal form, which is the normal form of its negation:
conjunctions and disjunctions swap, and so do the two quantifiers; literals and comparisons
change sign. Conditional and numeric effects cannot be negated and stay as they are. -/
def dual : Condition → Condition
  | .lit l => .lit l.negate
  | .and cs => .or (dualAll cs)
  | .or cs => .and (dualAll cs)
  | .not c => c
  | .quant q vs c => .quant q.dual vs (dual c)
  | .when p c => .when p c
  | .numEffect e => .numEffect e
  | .compare c => .compare c.negated

def dualAll : List Condition → List Condition
  | [] => []
  | c :: cs => dual c :: dualAll cs

end

theorem dualAll_eq_map : ∀ cs : List Condition, dualAll cs = cs.map dual
  | [] => rfl
  | c :: cs => by rw [dualAll, dualAll_eq_map cs, List.map_cons]

theorem dual_build (k : Junction) (cs : List Condition) :
    (k.build cs).dual = k.dual.build (cs.map dual) := by
  cases k <;> simp [Junction.build, Junction.dual, dual, dualAll_eq_map]

/-- Outside explicit negations, the dual is a constant exactly when the condition is the other
constant. -/
theorem dual_eq_tautology_iff {c : Condition} (hc : ∀ d, c ≠ .not d) :
    c.dual = tautology ↔ c = contradiction := by
  cases c with
  | not d => exact absurd rfl (hc d)
  | and cs => simp [dual, tautology, contradiction]
  | or cs => cases cs <;> simp [dual, dualAll, tautology, contradiction]
  | _ => simp [dual, tautology, contradiction]

theorem dual_eq_contradiction_iff {c : Condition} (hc : ∀ d, c ≠ .not d) :
    c.dual = contradiction ↔ c = tautology := by
  cases c with
  | not d => exact absurd rfl (hc d)
  | and cs => cases cs <;> simp [dual, dualAll, tautology, contradiction]
  | or cs => simp [dual, tautology, contradiction]
  | _ => simp [dual, tautology, contradiction]

end Condition

namespace Junction

open Condition

/-- Outside explicit negations, the dual is a set of the dual kind exactly when the condition is
a set of this kind, of the duals of its members. -/
theorem members?_dual (k : Junction) {c : Condition} (hc : ∀ d, c ≠ .not d) :
    k.dual.members? c.dual = (k.members? c).map (List.map Condition.dual) := by
  cases c with
  | not d => exact absurd rfl (hc d)
  | _ => cases k <;> simp [members?, Junction.dual, Condition.dual, dualAll_eq_map]

theorem absorbs_dual (k : Junction) {c : Condition} (hc : ∀ d, c ≠ .not d) :
    k.dual.absorbs c.dual = k.absorbs c := by
  cases k
  · rw [Bool.eq_iff_iff]
    simp only [absorbs, Junction.dual, isTautology_iff, isContradiction_iff]
    exact dual_eq_tautology_iff hc
  · rw [Bool.eq_iff_iff]
    simp only [absorbs, Junction.dual, isTautology_iff, isContradiction_iff]
    exact dual_eq_contradiction_iff hc

theorem keeps_dual (k : Junction) {c : Condition} (hc : ∀ d, c ≠ .not d) :
    k.dual.Keeps c.dual ↔ k.Keeps c := by
  simp only [Keeps, members?_dual k hc, absorbs_dual k hc, Option.map_eq_none_iff]

/-- The duals of the members of a set in normal form make a normalized set of the dual kind. -/
theorem normalize_dual_of_nnf (k : Junction) {cs : List Condition} (h : (k.build cs).Nnf) :
    k.dual.normalize (cs.map Condition.dual) = k.dual.build (cs.map Condition.dual) := by
  obtain ⟨hnode, hall⟩ := everywhere_build.mp h
  obtain ⟨hlen, hkeep⟩ := (nnfNode_build k cs).mp hnode
  refine normalize_of_keeps (by simpa using hlen) fun x hx => ?_
  obtain ⟨y, hy, rfl⟩ := List.mem_map.mp hx
  exact (keeps_dual k (Nnf.ne_not (hall y hy))).mpr (hkeep y hy)

/-- Flattening the duals in the dual kind gives the duals of the flattened elements. -/
theorem flatten_dual (k : Junction) :
    ∀ {es : List Condition}, (∀ e ∈ es, ∀ d, e ≠ .not d) →
      k.dual.flatten (es.map Condition.dual) = (k.flatten es).map (List.map Condition.dual)
  | [], _ => rfl
  | e :: es, h => by
      have hrest := flatten_dual k fun e' he' => h e' (.tail _ he')
      have he : ∀ d, e ≠ .not d := h e (.head _)
      simp only [List.map_cons, flatten, members?_dual k he, absorbs_dual k he, hrest]
      cases k.members? e with
      | some nested => cases k.flatten es <;> simp
      | none =>
          cases k.absorbs e
          · cases k.flatten es <;> simp
          · rfl

/-- The dual of a normalized set is the normalized set of the duals, in the dual kind. -/
theorem dual_normalize (k : Junction) {es : List Condition} (h : ∀ e ∈ es, ∀ d, e ≠ .not d) :
    (k.normalize es).dual = k.dual.normalize (es.map Condition.dual) := by
  unfold normalize
  rw [flatten_dual k h]
  cases hf : k.flatten es with
  | none => cases k <;> rfl
  | some flat =>
      match flat with
      | [] => cases k <;> rfl
      | [e] => rfl
      | _ :: _ :: _ => exact dual_build k _

end Junction

namespace Condition

mutual

/-- Simplifying a condition in normal form under negation gives its dual. -/
theorem simplify_true_of_nnf : ∀ (c : Condition), c.Nnf → c.simplify true = c.dual
  | .lit l, h => by
      have hs : l.staticEquality = none := (Literal.staticEquality_eq_none_iff l).mpr h
      simp [simplify, staticEquality_negate, hs, dual]
  | .and cs, h => by
      simp only [simplify, if_true, simplifyAll_true_of_nnf cs h.2, dual, dualAll_eq_map]
      exact Junction.normalize_dual_of_nnf .conj h
  | .or cs, h => by
      simp only [simplify, if_true, simplifyAll_true_of_nnf cs h.2, dual, dualAll_eq_map]
      exact Junction.normalize_dual_of_nnf .disj h
  | .not _, h => h.1.elim
  | .quant q vs c, h => by
      obtain ⟨⟨hvs, hall, hany⟩, hc⟩ := h
      rw [simplify_quant_eq, simplify_true_of_nnf c hc, if_neg]
      · rfl
      · simp only [if_true, dual_eq_tautology_iff (Nnf.ne_not hc),
          dual_eq_contradiction_iff (Nnf.ne_not hc)]
        rintro (hv | ⟨hf, hq⟩ | ⟨ht, hq⟩)
        · exact hvs hv
        · exact hany (by cases q <;> simp_all [Quantifier.dual]) hf
        · exact hall (by cases q <;> simp_all [Quantifier.dual]) ht
  | .when p c, h =>
      simplify_when_of_nnfNode true (simplify_false_of_nnf p h.2.1) (simplify_false_of_nnf c h.2.2)
        h.1
  | .numEffect _, _ => rfl
  | .compare c, h => by
      have hs : c.constValue? = none := (Comparison.constValue?_eq_none_iff c).mpr h
      simp [simplify, Comparison.constValue?_negated, hs, dual]

theorem simplifyAll_true_of_nnf :
    ∀ (cs : List Condition), EverywhereAll NnfNode cs → simplifyAll true cs = cs.map dual
  | [], _ => rfl
  | c :: cs, h => by
      rw [simplifyAll, simplify_true_of_nnf c h.1, simplifyAll_true_of_nnf cs h.2, List.map_cons]

end

/-- The dual of a normalized set of normal forms is the normalized set of their duals, of the
dual kind. -/
theorem dual_normalize_simplifyAll (k : Junction) (neg : Bool) {cs : List Condition}
    (hall : (simplifyAll neg cs).map dual = simplifyAll (!neg) cs) :
    (k.normalize (simplifyAll neg cs)).dual = k.dual.normalize (simplifyAll (!neg) cs) := by
  rw [Junction.dual_normalize k fun e he =>
    Nnf.ne_not (everywhereAll_iff.mp (simplifyAll_nnf neg cs) e he), hall]

mutual

/-- Without conditional effects, the dual of a normal form is the normal form under the other
flag. -/
theorem dual_simplify : ∀ (neg : Bool) (c : Condition), c.WhenFree →
    (c.simplify neg).dual = c.simplify (!neg)
  | neg, .lit l, _ => by
      have hl : (if (!neg) = true then l.negate else l) =
          (if neg = true then l.negate else l).negate := by
        cases neg <;> simp
      simp only [simplify, hl, staticEquality_negate]
      generalize (if neg = true then l.negate else l) = l'
      cases l'.staticEquality with
      | none => rfl
      | some b => cases b <;> rfl
  | neg, .and cs, h => by
      simp only [simplify]
      rw [dual_normalize_simplifyAll _ neg (dual_simplifyAll neg cs h.2)]
      cases neg <;> rfl
  | neg, .or cs, h => by
      simp only [simplify]
      rw [dual_normalize_simplifyAll _ neg (dual_simplifyAll neg cs h.2)]
      cases neg <;> rfl
  | neg, .not c, h => by
      simp only [simplify]
      rw [dual_simplify (!neg) c h.2, Bool.not_not]
  | neg, .quant q vs c, h => by
      have hin := dual_simplify neg c h.2
      have hne := Nnf.ne_not (simplify_nnf neg c)
      have hq :
          (if (!neg) = true then q.dual else q) = (if neg = true then q.dual else q).dual := by
        cases neg <;> simp
      rw [simplify_quant_eq, simplify_quant_eq (!neg), ← hin, hq]
      generalize (if neg = true then q.dual else q) = q'
      -- the dual collapses exactly when the normal form does, to the other constant
      have hcond : (vs = [] ∨ ((c.simplify neg).dual = tautology ∧ q'.dual = .all) ∨
            ((c.simplify neg).dual = contradiction ∧ q'.dual = .any)) ↔
          (vs = [] ∨ (c.simplify neg = tautology ∧ q' = .all) ∨
            (c.simplify neg = contradiction ∧ q' = .any)) := by
        rw [dual_eq_tautology_iff hne, dual_eq_contradiction_iff hne]
        cases q' <;> simp [Quantifier.dual, or_comm]
      split <;> split
      · rfl
      · rename_i hkeep hcollapse
        exact absurd (hcond.mpr hkeep) hcollapse
      · rename_i hkeep hcollapse
        exact absurd (hcond.mp hcollapse) hkeep
      · rfl
  | _, .when p c, h => (h.1 p c rfl).elim
  | _, .numEffect _, _ => rfl
  | neg, .compare c, _ => by
      have hc : (if (!neg) = true then c.negated else c) =
          (if neg = true then c.negated else c).negated := by
        cases neg <;> simp
      simp only [simplify, hc, Comparison.constValue?_negated]
      generalize (if neg = true then c.negated else c) = c'
      cases c'.constValue? with
      | none => rfl
      | some b => cases b <;> rfl

theorem dual_simplifyAll (neg : Bool) : ∀ (cs : List Condition),
    EverywhereAll (fun n => ∀ p e, n ≠ .when p e) cs →
      (simplifyAll neg cs).map dual = simplifyAll (!neg) cs
  | [], _ => rfl
  | c :: cs, h => by
      rw [simplifyAll, List.map_cons, dual_simplify neg c h.1, dual_simplifyAll neg cs h.2,
        simplifyAll]

end

/-! ## Main statements -/

/-- Negation normal form keeps the value of every condition that has one, negated under the
flag. Quantifications range over the objects of the problem, which may be none. -/
theorem evaluate_simplify {pb : Problem} {holds : String → List String → Bool} {c : Condition}
    {v : Bool} (neg : Bool) (h : c.evaluate pb holds = some v) :
    (c.simplify neg).evaluate pb holds = some (xor v neg) :=
  evalIn_simplify neg c h

/-- Every lamp is on. -/
def everyLampOn : Condition :=
  .quant .all [⟨"x", "lamp"⟩] (.lit ⟨"on", [.var ⟨"x", "lamp"⟩], false⟩)

/-- Without lamps, every lamp is on, and the normal form of the negation (some lamp is off) is
false. -/
theorem no_lamp_is_off :
    everyLampOn.evaluate {} (fun _ _ => false) = some true ∧
      (everyLampOn.simplify true).evaluate {} (fun _ _ => false) = some false :=
  have h : everyLampOn.evaluate {} (fun _ _ => false) = some true := rfl
  ⟨h, evaluate_simplify true h⟩

/-- `simplify` gives negation normal form at every node, under either flag. -/
theorem simplify_gives_negation_normal_form (neg : Bool) (c : Condition) : (c.simplify neg).Nnf :=
  simplify_nnf neg c

/-- Negation normal form is a fixed point of `simplify`; without conditional effects,
simplifying it again under negation is simplifying the condition under the other flag. -/
theorem simplify_fixed_and_flips (neg : Bool) (c : Condition) :
    (c.simplify neg).simplify false = c.simplify neg ∧
      (c.WhenFree → (c.simplify neg).simplify true = c.simplify (!neg)) :=
  ⟨simplify_false_of_nnf _ (simplify_nnf neg c), fun h => by
    rw [simplify_true_of_nnf _ (simplify_nnf neg c), dual_simplify neg c h]⟩

/-- Not both: every lamp is on, and lamp a is on or off. -/
def notEveryLampOnAndSettled : Condition :=
  .not (.and [everyLampOn,
    .or [.lit ⟨"on", [.const ⟨"a", "lamp"⟩], false⟩, .lit ⟨"on", [.const ⟨"a", "lamp"⟩], true⟩]])

/-- Negating the normal form of the condition again gives the condition's own normal form. -/
theorem lamps_simplify_flips :
    notEveryLampOnAndSettled.WhenFree ∧
      (notEveryLampOnAndSettled.simplify true).simplify true =
        notEveryLampOnAndSettled.simplify false :=
  have h : notEveryLampOnAndSettled.WhenFree := by
    simp [notEveryLampOnAndSettled, everyLampOn, Everywhere]
  ⟨h, (simplify_fixed_and_flips true notEveryLampOnAndSettled).2 h⟩

end Condition

end Pddl
