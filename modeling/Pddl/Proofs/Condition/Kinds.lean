import Pddl.Proofs.Condition.Normal
/-!
# Properties of the kinds of nodes

Substitution keeps the kind of every node, and `simplify` builds only conjunctions and
disjunctions, or nodes of the kinds it is given: it negates literals and comparisons, dualizes
quantifiers and removes negations. So a property of nodes that every conjunction and
disjunction has, and that holds of a node whenever it holds of one of the same kind
(`KindProperty`), holds everywhere in the result when it holds everywhere in the condition
(`everywhere_subst`, `everywhere_simplify`). Having no negation, no quantification or no
conditional effect are such properties.

The proofs are done once, by recursion on the condition, with one case per constructor.
-/

namespace Pddl

namespace Condition

/-- Two nodes of the same kind: built with the same constructor, whatever their parts, and for
quantifications whatever the quantifier. -/
def SameKind : Condition → Condition → Prop
  | .lit _, .lit _ => True
  | .and _, .and _ => True
  | .or _, .or _ => True
  | .not _, .not _ => True
  | .quant .., .quant .. => True
  | .when .., .when .. => True
  | .numEffect _, .numEffect _ => True
  | .compare _, .compare _ => True
  | _, _ => False

/-- A property of nodes that every conjunction and disjunction has, and that only depends on the
kind of a node. -/
structure KindProperty (P : Condition → Prop) : Prop where
  junction : ∀ k cs, P (Junction.build k cs)
  of_sameKind : ∀ {n n'}, P n → SameKind n n' → P n'

theorem kindProperty_notFree : KindProperty fun n => ∀ d, n ≠ .not d where
  junction k _ := by cases k <;> exact fun _ => nofun
  of_sameKind {n _} hn h d hd := by
    subst hd
    cases n with
    | not c => exact hn c rfl
    | _ => exact nomatch h

theorem kindProperty_quantFree : KindProperty fun n => ∀ q vs b, n ≠ .quant q vs b where
  junction k _ := by cases k <;> exact fun _ _ _ => nofun
  of_sameKind {n _} hn h q vs b hd := by
    subst hd
    cases n with
    | quant q' vs' c => exact hn q' vs' c rfl
    | _ => exact nomatch h

theorem kindProperty_whenFree : KindProperty fun n => ∀ p e, n ≠ .when p e where
  junction k _ := by cases k <;> exact fun _ _ => nofun
  of_sameKind {n _} hn h p e hd := by
    subst hd
    cases n with
    | when p' e' => exact hn p' e' rfl
    | _ => exact nomatch h

section Kinds

variable {P : Condition → Prop}

/-- A conjunction or disjunction has the property everywhere when its members have it. -/
theorem everywhere_build_iff (hjunction : ∀ k cs, P (Junction.build k cs)) (k : Junction)
    (cs : List Condition) :
    (k.build cs).Everywhere P ↔ ∀ c ∈ cs, c.Everywhere P :=
  ⟨fun h => (everywhere_build.mp h).2, fun h => everywhere_build.mpr ⟨hjunction k cs, h⟩⟩

theorem everywhere_tautology (hP : KindProperty P) : tautology.Everywhere P :=
  (everywhere_build_iff hP.junction .conj []).mpr nofun

theorem everywhere_contradiction (hP : KindProperty P) : contradiction.Everywhere P :=
  (everywhere_build_iff hP.junction .disj []).mpr nofun

mutual

/-- Substitution keeps a property of the kinds of nodes. -/
theorem everywhere_subst (hP : KindProperty P) (σ : Subst) :
    ∀ {c : Condition}, c.Everywhere P → (c.subst σ).Everywhere P
  | .lit _, h => hP.of_sameKind h trivial
  | .and _, h => ⟨hP.of_sameKind h.1 trivial, everywhereAll_substAll hP σ h.2⟩
  | .or _, h => ⟨hP.of_sameKind h.1 trivial, everywhereAll_substAll hP σ h.2⟩
  | .not _, h => ⟨hP.of_sameKind h.1 trivial, everywhere_subst hP σ h.2⟩
  | .quant .., h => ⟨hP.of_sameKind h.1 trivial, everywhere_subst hP _ h.2⟩
  | .when .., h =>
      ⟨hP.of_sameKind h.1 trivial, everywhere_subst hP σ h.2.1, everywhere_subst hP σ h.2.2⟩
  | .numEffect _, h => hP.of_sameKind h trivial
  | .compare _, h => hP.of_sameKind h trivial

theorem everywhereAll_substAll (hP : KindProperty P) (σ : Subst) :
    ∀ {cs : List Condition}, EverywhereAll P cs → EverywhereAll P (substAll σ cs)
  | [], _ => trivial
  | _ :: _, h => ⟨everywhere_subst hP σ h.1, everywhereAll_substAll hP σ h.2⟩

end

mutual

/-- Negation normal form keeps a property of the kinds of nodes. -/
theorem everywhere_simplify (hP : KindProperty P) :
    ∀ (neg : Bool) {c : Condition}, c.Everywhere P → (c.simplify neg).Everywhere P
  | neg, .lit l, h => by
      simp only [simplify]
      split
      · exact everywhere_tautology hP
      · exact everywhere_contradiction hP
      · exact hP.of_sameKind h trivial
  | neg, .and cs, h => by
      simp only [simplify]
      exact Junction.normalize_of_forall (everywhere_build_iff hP.junction)
        (everywhereAll_iff.mp (everywhereAll_simplifyAll hP neg h.2))
  | neg, .or cs, h => by
      simp only [simplify]
      exact Junction.normalize_of_forall (everywhere_build_iff hP.junction)
        (everywhereAll_iff.mp (everywhereAll_simplifyAll hP neg h.2))
  | neg, .not _, h => everywhere_simplify hP (!neg) h.2
  | neg, .quant q vs c, h => by
      have hc := everywhere_simplify hP neg h.2
      rw [simplify_quant_eq]
      generalize (if neg = true then q.dual else q) = q'
      split
      · exact hc
      · exact ⟨hP.of_sameKind h.1 trivial, hc⟩
  | _, .when p c, h => by
      have hp := everywhere_simplify hP false h.2.1
      have hc := everywhere_simplify hP false h.2.2
      simp only [simplify]
      split
      · exact everywhere_tautology hP
      · split
        · exact hc
        · exact ⟨hP.of_sameKind h.1 trivial, hp, hc⟩
  | _, .numEffect _, h => h
  | neg, .compare c, h => by
      simp only [simplify]
      split
      · exact everywhere_tautology hP
      · exact everywhere_contradiction hP
      · exact hP.of_sameKind h trivial

theorem everywhereAll_simplifyAll (hP : KindProperty P) (neg : Bool) :
    ∀ {cs : List Condition}, EverywhereAll P cs → EverywhereAll P (simplifyAll neg cs)
  | [], _ => trivial
  | _ :: _, h => ⟨everywhere_simplify hP neg h.1, everywhereAll_simplifyAll hP neg h.2⟩

end

end Kinds

end Condition

end Pddl
