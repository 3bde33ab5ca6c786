import Pddl.Proofs.Preprocess.Cost
/-!
# Constant folding is checked integer arithmetic

`NumExpr.constValue?` folds an expression made of constants with the checked operations of
64-bit integers. `NumExpr.Folds e v` says the same without machine words: `e` has no fluent,
evaluating it bottom-up over the integers (division truncating toward zero) never divides by
zero, and every node, the leaves included, has a value in the 64-bit range; `v` is the value of
the root. On the expressions whose constants are 64-bit values, which are the expressions a
problem can hold, folding gives `v` exactly when `Folds e v` (`NumExpr.constValue?_eq_some_iff`).
An inner node out of range leaves the whole expression without a value, even when its parent
would bring the value back into range, and `(/ -2^63 -1)` has none either.

Consequences:

* a comparison has a fixed truth value exactly when both sides fold, and it is the comparison of
  their exact values (`Comparison.constValue?_eq_some_iff`); its negation has the opposite value
  (`Comparison.constValue?_negated`);
* `simplify` replaces a comparison whose sides fold by the constant it denotes, under either flag
  (`Condition.simplify_compare_of_folds`);
* the cost tally adds with saturation, so the cost of every operator stays in the 64-bit range
  (`operatorCosts_fit`).
-/

namespace Pddl

/-- The exact result of an operation on two integers; division truncates toward zero. -/
def ArithOp.exact : ArithOp → Int → Int → Int
  | .plus, a, b => a + b
  | .minus, a, b => a - b
  | .times, a, b => a * b
  | .div, a, b => a.tdiv b

/-- A checked operation succeeds exactly when it does not divide by zero and its exact result
is a 64-bit value, which it returns. -/
theorem ArithOp.apply?_eq_some_iff {o : ArithOp} {a b v : Int} :
    o.apply? a b = some v ↔
      (o = .div → b ≠ 0) ∧ fitsInt64 (o.exact a b) = true ∧ o.exact a b = v := by
  cases o with
  | div =>
      by_cases hb : b = 0
      · simp [ ArithOp.apply?, hb]
      · simp [ ArithOp.apply?, exact, checkedInt64, hb]
  | _ => simp [ ArithOp.apply?, exact, checkedInt64]

namespace NumExpr

/-- `e` has no fluent, evaluates bottom-up over the integers without dividing by zero, and has
a 64-bit value at every node; `v` is the value of the root. -/
inductive Folds : NumExpr → Int → Prop where
  | const {v : Int} : fitsInt64 v = true → Folds (.const v) v
  | op {o : ArithOp} {l r : NumExpr} {a b : Int} : Folds l a → Folds r b → (o = .div → b ≠ 0) →
      fitsInt64 (o.exact a b) = true → Folds (.op o l r) (o.exact a b)

/-- Every constant of the expression is a 64-bit value. -/
def ConstantsFit : NumExpr → Prop
  | .const v => fitsInt64 v = true
  | .fluent _ => True
  | .op _ l r => ConstantsFit l ∧ ConstantsFit r

instance decConstantsFit : (e : NumExpr) → Decidable e.ConstantsFit
  | .const v => inferInstanceAs (Decidable (fitsInt64 v = true))
  | .fluent _ => inferInstanceAs (Decidable True)
  | .op _ l r =>
      have := decConstantsFit l
      have := decConstantsFit r
      inferInstanceAs (Decidable (l.ConstantsFit ∧ r.ConstantsFit))

theorem constValue?_op (o : ArithOp) (l r : NumExpr) :
    (NumExpr.op o l r).constValue? =
      l.constValue?.bind fun a => r.constValue?.bind fun b => o.apply? a b := by
  simp only [constValue?]
  cases l.constValue? <;> cases r.constValue? <;> rfl

/-- An expression that folds exactly has its exact value as folded value. -/
theorem constValue?_of_folds {e : NumExpr} {v : Int} (h : e.Folds v) : e.constValue? = some v := by
  induction h with
  | const => rfl
  | op _ _ hdiv hfit ihl ihr =>
      rw [constValue?_op, ihl, Option.bind_some, ihr, Option.bind_some]
      exact ArithOp.apply?_eq_some_iff.mpr ⟨hdiv, hfit, rfl⟩

/-- On an expression of 64-bit constants, a folded value is the exact value, reached without
leaving the range at any node. -/
theorem folds_of_constValue? :
    ∀ {e : NumExpr} {v : Int}, e.ConstantsFit → e.constValue? = some v → e.Folds v
  | .const _, _, hfit, h => by
      cases h
      exact .const hfit
  | .fluent _, _, _, h => by cases h
  | .op _ _ _, _, ⟨hl, hr⟩, h => by
      rw [constValue?_op] at h
      obtain ⟨a, ha, h⟩ := Option.bind_eq_some_iff.mp h
      obtain ⟨b, hb, h⟩ := Option.bind_eq_some_iff.mp h
      obtain ⟨hdiv, hfit, rfl⟩ := ArithOp.apply?_eq_some_iff.mp h
      exact .op (folds_of_constValue? hl ha) (folds_of_constValue? hr hb) hdiv hfit

theorem constValue?_eq_some_iff {e : NumExpr} (h : e.ConstantsFit) {v : Int} :
    e.constValue? = some v ↔ e.Folds v :=
  ⟨folds_of_constValue? h, constValue?_of_folds⟩

end NumExpr

namespace Comparison

theorem constValue?_eq_bind (c : Comparison) :
    c.constValue? = c.lhs.constValue?.bind fun a => c.rhs.constValue?.map (c.cmp.holds a) := by
  simp only [constValue?]
  cases c.lhs.constValue? <;> cases c.rhs.constValue? <;> rfl

/-- A comparison of expressions of 64-bit constants has a fixed truth value exactly when both
sides fold, and it is then the comparison of their exact values. -/
theorem constValue?_eq_some_iff {c : Comparison} (hl : c.lhs.ConstantsFit)
    (hr : c.rhs.ConstantsFit) {t : Bool} :
    c.constValue? = some t ↔ ∃ x y, c.lhs.Folds x ∧ c.rhs.Folds y ∧ c.cmp.holds x y = t := by
  rw [constValue?_eq_bind, Option.bind_eq_some_iff]
  constructor
  · rintro ⟨x, hx, hmap⟩
    obtain ⟨y, hy, rfl⟩ := Option.map_eq_some_iff.mp hmap
    exact ⟨x, y, (NumExpr.constValue?_eq_some_iff hl).mp hx,
      (NumExpr.constValue?_eq_some_iff hr).mp hy, rfl⟩
  · rintro ⟨x, y, hx, hy, rfl⟩
    rw [NumExpr.constValue?_of_folds hx, NumExpr.constValue?_of_folds hy]
    exact ⟨x, rfl, rfl⟩

end Comparison

/-- `simplify` evaluates a comparison whose sides fold: to true when it holds of their exact
values, to false otherwise, and the other way round under negation. -/
theorem Condition.simplify_compare_of_folds (neg : Bool) {c : Comparison} {x y : Int}
    (hl : c.lhs.Folds x) (hr : c.rhs.Folds y) :
    (Condition.compare c).simplify neg =
      if c.cmp.holds x y != neg then tautology else contradiction := by
  have hc : c.constValue? = some (c.cmp.holds x y) := by
    rw [Comparison.constValue?_eq_bind, NumExpr.constValue?_of_folds hl,
      NumExpr.constValue?_of_folds hr]
    rfl
  cases neg <;> cases ht : c.cmp.holds x y <;>
    simp [simplify, hc, Comparison.constValue?_negated, ht]

/-! ## Saturating costs -/

theorem minInt64_eq : minInt64 = -9223372036854775808 := by decide

theorem maxInt64_eq : maxInt64 = 9223372036854775807 := by decide

theorem fitsInt64_iff {v : Int} :
    fitsInt64 v = true ↔ -9223372036854775808 ≤ v ∧ v ≤ 9223372036854775807 := by
  simp [fitsInt64, minInt64_eq, maxInt64_eq]

theorem fitsInt64_saturatingAdd (a b : Int) : fitsInt64 (saturatingAdd a b) = true := by
  rw [fitsInt64_iff, saturatingAdd, minInt64_eq, maxInt64_eq]
  omega

theorem fits_foldl_saturatingAdd {a : Int} (ha : fitsInt64 a = true) :
    ∀ xs : List Int, fitsInt64 (xs.foldl saturatingAdd a) = true
  | [] => ha
  | x :: xs => by
      rw [List.foldl_cons]
      exact fits_foldl_saturatingAdd (fitsInt64_saturatingAdd a x) xs

/-- The tally of an effect never leaves the 64-bit range. -/
theorem CostTally.fits_cost_addEffect (op : String) {t : CostTally} (ht : fitsInt64 t.cost = true)
    (c : Condition) : fitsInt64 (addEffect op t c).cost = true := by
  rw [cost_addEffect]
  exact fits_foldl_saturatingAdd ht _

/-- Every operator cost found from `total-cost` is a 64-bit value. -/
theorem operatorCosts_fit {pb : Problem} {costs : List Int} (h : operatorCosts pb = .ok costs) :
    ∀ k ∈ costs, fitsInt64 k = true := by
  intro k hk
  rw [(operatorCosts_eq_ok h).1] at hk
  obtain ⟨op, -, rfl⟩ := List.mem_map.mp hk
  exact fits_foldl_saturatingAdd (by decide) _

/-- Constant folding is exact checked arithmetic over the integers: on expressions of 64-bit
constants it gives a value exactly when the expression has no fluent, divides by no zero and
stays in the 64-bit range at every node, and that value is the exact one. Comparisons of such
expressions fold to the comparison of the exact values, `simplify` evaluates them so, and
negating a comparison negates its value and is undone by a second negation. Operator costs
add with saturation and stay in the 64-bit range. -/
theorem constant_folding_is_checked_arithmetic :
    (∀ e : NumExpr, e.ConstantsFit → ∀ v, e.constValue? = some v ↔ e.Folds v) ∧
    (∀ c : Comparison, c.lhs.ConstantsFit → c.rhs.ConstantsFit → ∀ t,
      c.constValue? = some t ↔ ∃ x y, c.lhs.Folds x ∧ c.rhs.Folds y ∧ c.cmp.holds x y = t) ∧
    (∀ (neg : Bool) (c : Comparison) (x y : Int), c.lhs.Folds x → c.rhs.Folds y →
      (Condition.compare c).simplify neg =
        if c.cmp.holds x y != neg then Condition.tautology else Condition.contradiction) ∧
    (∀ c : Comparison, c.negated.constValue? = c.constValue?.map (!·) ∧ c.negated.negated = c) ∧
    (∀ (pb : Problem) (costs : List Int), operatorCosts pb = .ok costs →
      ∀ k ∈ costs, fitsInt64 k = true) :=
  ⟨fun _ h _ => NumExpr.constValue?_eq_some_iff h,
    fun _ hl hr _ => Comparison.constValue?_eq_some_iff hl hr,
    fun neg _ _ _ hl hr => Condition.simplify_compare_of_folds neg hl hr,
    fun c => ⟨Comparison.constValue?_negated c, Comparison.negated_negated c⟩,
    fun _ _ h => operatorCosts_fit h⟩

/-- `(- (+ 2^62 2^62) 1)`: the inner sum leaves the range, so the expression has no value
although its exact value `2^63 - 1` is the greatest 64-bit integer. -/
def innerOverflow : NumExpr :=
  .op .minus (.op .plus (.const (Int.pow 2 62)) (.const (Int.pow 2 62))) (.const 1)

theorem inner_overflow_has_no_value :
    innerOverflow.ConstantsFit ∧ ¬ innerOverflow.Folds maxInt64 := by
  have hfit : innerOverflow.ConstantsFit := by decide
  refine ⟨hfit, fun h => ?_⟩
  have hval := (constant_folding_is_checked_arithmetic.1 innerOverflow hfit maxInt64).mpr h
  exact absurd hval (by decide)

end Pddl
