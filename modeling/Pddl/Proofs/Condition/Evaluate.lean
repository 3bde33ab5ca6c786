import Pddl.Condition.Evaluate
import Pddl.Proofs.Condition.Closed
/-!
# Evaluation under substitution and simplification

`Condition.evaluate` gives a condition a truth value under a closed-world interpretation, or no
value. Three facts carry what later proofs need from it:

* evaluating a condition after substituting objects for variables is evaluating it with the
  substitution in its environment (`evalIn_subst`); so a quantification has the value of the
  junction of its instances (`evaluate_quant`);
* negation normal form keeps every value the condition has (`evalIn_simplify`), negated when
  asked. The converse fails: simplification folds comparisons of constants, which have no value;
* the normal form leaves no equality literal with a fixed value where grounding reads literals
  (`staticFree_simplify`).
-/

namespace Pddl

/-! ## Substitutions of objects -/

namespace Argument

theorem subst_nil (a : Argument) : a.subst [] = a := by
  cases a <;> rfl

/-- Substituting objects and then `τ` substitutes by both, the objects first. -/
theorem subst_subst {ρ : Subst} (hρ : ∀ e ∈ ρ, e.2.isConst = true) (τ : Subst) (a : Argument) :
    (a.subst ρ).subst τ = a.subst (ρ ++ τ) := by
  cases a with
  | const o => rfl
  | var p =>
      simp only [subst, List.find?_append]
      cases h : ρ.find? (·.1 == p.name) with
      | none => rfl
      | some e =>
          obtain ⟨k, v⟩ := e
          have hv : v.isConst = true := hρ _ (List.mem_of_find?_eq_some h)
          cases v with
          | const o => rfl
          | var _ => cases hv

/-- Substitutions that agree on every argument still agree behind a common prefix. -/
theorem subst_append_congr {σ σ' : Subst} (h : ∀ a : Argument, a.subst σ = a.subst σ')
    (ρ : Subst) (a : Argument) : a.subst (ρ ++ σ) = a.subst (ρ ++ σ') := by
  cases a with
  | const o => rfl
  | var p =>
      have hp := h (.var p)
      simp only [subst, List.find?_append] at hp ⊢
      cases ρ.find? (·.1 == p.name) with
      | none => exact hp
      | some e => rfl

end Argument

theorem Literal.subst_nil (l : Literal) : l.subst [] = l := by
  have h : Argument.subst [] = id := funext Argument.subst_nil
  simp [Literal.subst, h]

theorem find?_without_of_not_mem {ρ : Subst} {names : List String} {x : String} (hx : x ∉ names) :
    (ρ.without names).find? (·.1 == x) = ρ.find? (·.1 == x) := by
  simp only [Subst.without, List.find?_filter]
  congr 1
  funext e
  by_cases he : e.1 = x
  · simp [he, hx]
  · simp [he]

theorem find?_ofLists_eq_none {vs : List Param} {t : List Argument} {x : String}
    (hx : x ∉ vs.map Param.name) : (Subst.ofLists vs t).find? (·.1 == x) = none := by
  refine List.find?_eq_none.mpr fun e he hex => hx ?_
  rw [← beq_iff_eq.mp hex]
  exact (List.of_mem_zip he).1

theorem find?_ofLists_isSome {vs : List Param} {t : List Argument} {x : String}
    (ht : vs.length ≤ t.length) (hx : x ∈ vs.map Param.name) :
    ((Subst.ofLists vs t).find? (·.1 == x)).isSome := by
  rw [List.find?_isSome]
  rw [← Condition.keys_ofLists ht] at hx
  obtain ⟨e, he, rfl⟩ := List.mem_map.mp hx
  exact ⟨e, he, by simp⟩

/-- Below a quantification, the substitution without the names it binds, after a binding of
those names, acts as the binding followed by the whole substitution. -/
theorem Argument.subst_without_append {ρ : Subst} {vs : List Param} {t : List Argument}
    (ht : vs.length ≤ t.length) (τ : Subst) (a : Argument) :
    a.subst (ρ.without (vs.map Param.name) ++ (Subst.ofLists vs t ++ τ)) =
      a.subst (Subst.ofLists vs t ++ (ρ ++ τ)) := by
  cases a with
  | const o => rfl
  | var p =>
      simp only [Argument.subst, List.find?_append]
      by_cases hp : p.name ∈ vs.map Param.name
      · -- the binding hides the entries of the substitution
        have hnone : (ρ.without (vs.map Param.name)).find? (·.1 == p.name) = none :=
          List.find?_eq_none.mpr fun e he hep =>
            (mem_without.mp he).2 (by rw [beq_iff_eq.mp hep]; exact hp)
        obtain ⟨e, he⟩ := Option.isSome_iff_exists.mp (find?_ofLists_isSome ht hp)
        rw [hnone, he]
        rfl
      · rw [find?_without_of_not_mem hp, find?_ofLists_eq_none hp]
        rfl

namespace Condition

variable {pb : Problem} {holds : String → List String → Bool}

/-! ## Combining values -/

@[simp] theorem combine_some_some {conj a b : Bool} :
    combine conj (some a) (some b) = some (if conj then a && b else a || b) := rfl

@[simp] theorem combine_none_left {conj : Bool} {o : Option Bool} : combine conj none o = none :=
  rfl

@[simp] theorem combine_none_right {conj : Bool} {o : Option Bool} : combine conj o none = none := by
  cases o <;> rfl

theorem combine_eq_some_iff {conj v : Bool} {o o' : Option Bool} :
    combine conj o o' = some v ↔
      ∃ a b, o = some a ∧ o' = some b ∧ v = (if conj then a && b else a || b) := by
  cases o <;> cases o' <;> simp [eq_comm]

/-- The unit of a junction: true for a conjunction, false for a disjunction. -/
@[simp] theorem combine_unit_left {conj : Bool} {o : Option Bool} : combine conj (some conj) o = o := by
  cases o <;> cases conj <;> simp

@[simp] theorem combine_unit_right {conj : Bool} {o : Option Bool} : combine conj o (some conj) = o := by
  cases o <;> cases conj <;> simp

theorem combine_assoc {conj : Bool} (o₁ o₂ o₃ : Option Bool) :
    combine conj (combine conj o₁ o₂) o₃ = combine conj o₁ (combine conj o₂ o₃) := by
  cases o₁ <;> cases o₂ <;> cases o₃ <;> cases conj <;> simp [Bool.and_assoc, Bool.or_assoc]

/-- De Morgan: negating both values turns a conjunction into a disjunction of the negations. -/
theorem combine_xor {conj neg a b : Bool} :
    combine (xor conj neg) (some (xor a neg)) (some (xor b neg)) =
      some (xor (if conj then a && b else a || b) neg) := by
  cases conj <;> cases neg <;> cases a <;> cases b <;> rfl

/-- A left fold of `combine` is the start combined with the right fold. -/
theorem foldl_combine {α : Type} {conj : Bool} (f : α → Option Bool) :
    ∀ (ts : List α) (init : Option Bool),
      ts.foldl (fun acc t => combine conj acc (f t)) init =
        combine conj init (ts.foldr (fun t acc => combine conj (f t) acc) (some conj))
  | [], init => by simp
  | t :: ts, init => by
      rw [List.foldl_cons, foldl_combine f ts, List.foldr_cons, combine_assoc]

/-- Negating every value of a fold of junctions negates its value and swaps the junction. -/
theorem foldr_combine_xor {α : Type} {f g : α → Option Bool} {conj neg : Bool} :
    ∀ {ts : List α} {v : Bool}, (∀ t ∈ ts, ∀ w, f t = some w → g t = some (xor w neg)) →
      ts.foldr (fun t acc => combine conj (f t) acc) (some conj) = some v →
      ts.foldr (fun t acc => combine (xor conj neg) (g t) acc) (some (xor conj neg)) =
        some (xor v neg)
  | [], v, _, h => by
      simp only [List.foldr_nil, Option.some.injEq] at h
      rw [h]
      rfl
  | t :: ts, v, hfg, h => by
      simp only [List.foldr_cons] at h ⊢
      obtain ⟨a, b, ha, hb, rfl⟩ := combine_eq_some_iff.mp h
      rw [hfg t (.head _) a ha,
        foldr_combine_xor (fun t' ht' => hfg t' (.tail _ ht')) hb, combine_xor]

/-- A fold of the unit of a junction is that unit. -/
theorem foldr_combine_unit {α : Type} {conj : Bool} (ts : List α) :
    ts.foldr (fun _ acc => combine conj (some conj) acc) (some conj) = some conj := by
  induction ts with
  | nil => rfl
  | cons t ts ih => rw [List.foldr_cons, ih, combine_unit_left]

/-! ## Evaluation under substitution -/

theorem evalAll_append (σ : Subst) (conj : Bool) (xs ys : List Condition) :
    evalAll pb holds σ conj (xs ++ ys) =
      combine conj (evalAll pb holds σ conj xs) (evalAll pb holds σ conj ys) := by
  induction xs with
  | nil => simp [evalAll]
  | cons x xs ih => simp only [List.cons_append, evalAll, ih, combine_assoc]

theorem evalAll_map {α : Type} (σ : Subst) (conj : Bool) (g : α → Condition) (ts : List α) :
    evalAll pb holds σ conj (ts.map g) =
      ts.foldr (fun t acc => combine conj (evalIn pb holds σ (g t)) acc) (some conj) := by
  induction ts with
  | nil => rfl
  | cons t ts ih => simp only [List.map_cons, evalAll, ih, List.foldr_cons]

/-- A quantification combines the values of its body under each binding of its variables. -/
theorem evalIn_quant (σ : Subst) (q : Quantifier) (vs : List Param) (c : Condition) :
    evalIn pb holds σ (.quant q vs c) =
      (pb.bindings vs).foldr
        (fun t acc => combine (q == .all) (evalIn pb holds (Subst.ofLists vs t ++ σ) c) acc)
        (some (q == .all)) := by
  simp only [evalIn]
  rw [foldl_combine, combine_unit_left]

mutual

/-- Evaluation reads a substitution only through the values it gives to arguments. -/
theorem evalIn_congr {σ σ' : Subst} (h : ∀ a : Argument, a.subst σ = a.subst σ') :
    ∀ c : Condition, evalIn pb holds σ c = evalIn pb holds σ' c
  | .lit l => by
      have hf : Argument.subst σ = Argument.subst σ' := funext h
      have hl : l.subst σ = l.subst σ' := by simp only [Literal.subst, hf]
      simp only [evalIn, hl]
  | .and cs => by simp only [evalIn]; exact evalAll_congr h true cs
  | .or cs => by simp only [evalIn]; exact evalAll_congr h false cs
  | .not c => by simp only [evalIn, evalIn_congr h c]
  | .quant q vs c => by
      have hbody : ∀ t, evalIn pb holds (Subst.ofLists vs t ++ σ) c =
          evalIn pb holds (Subst.ofLists vs t ++ σ') c :=
        fun t => evalIn_congr (Argument.subst_append_congr h _) c
      simp only [evalIn, hbody]
  | .when .. => rfl
  | .numEffect _ => rfl
  | .compare _ => rfl

theorem evalAll_congr {σ σ' : Subst} (h : ∀ a : Argument, a.subst σ = a.subst σ')
    (conj : Bool) : ∀ cs : List Condition, evalAll pb holds σ conj cs = evalAll pb holds σ' conj cs
  | [] => rfl
  | c :: cs => by simp only [evalAll, evalIn_congr h c, evalAll_congr h conj cs]

end

mutual

/-- Substituting objects into a condition is evaluating it with the substitution in front of
its environment. Below a quantification, each binding takes the place of the entries the
quantification hides. -/
theorem evalIn_subst {τ : Subst} :
    ∀ {ρ : Subst} (c : Condition), (∀ e ∈ ρ, e.2.isConst = true) →
      evalIn pb holds τ (c.subst ρ) = evalIn pb holds (ρ ++ τ) c
  | ρ, .lit l, hρ => by
      have hl : (l.subst ρ).subst τ = l.subst (ρ ++ τ) := by
        simp only [Literal.subst, List.map_map, Function.comp_def, Argument.subst_subst hρ]
      simp only [subst, evalIn, hl]
  | _, .and cs, hρ => by simp only [subst, evalIn]; exact evalAll_substAll true cs hρ
  | _, .or cs, hρ => by simp only [subst, evalIn]; exact evalAll_substAll false cs hρ
  | _, .not c, hρ => by simp only [subst, evalIn, evalIn_subst c hρ]
  | ρ, .quant q vs c, hρ => by
      have hρ' : ∀ e ∈ ρ.without (vs.map Param.name), e.2.isConst = true :=
        fun e he => hρ e (mem_without.mp he).1
      have hbody : ∀ t ∈ pb.bindings vs,
          evalIn pb holds (Subst.ofLists vs t ++ τ) (c.subst (ρ.without (vs.map Param.name))) =
            evalIn pb holds (Subst.ofLists vs t ++ (ρ ++ τ)) c := by
        intro t ht
        rw [evalIn_subst c hρ']
        exact evalIn_congr
          (Argument.subst_without_append (Nat.le_of_eq (groundArgs_of_mem_bindings ht).1.symm) τ) c
      simp only [subst]
      rw [evalIn_quant, evalIn_quant]
      exact List.foldr_ext _ _ _ fun t ht acc => by rw [hbody t ht]
  | _, .when .., _ => rfl
  | _, .numEffect _, _ => rfl
  | _, .compare _, _ => rfl

theorem evalAll_substAll {τ : Subst} (conj : Bool) :
    ∀ {ρ : Subst} (cs : List Condition), (∀ e ∈ ρ, e.2.isConst = true) →
      evalAll pb holds τ conj (substAll ρ cs) = evalAll pb holds (ρ ++ τ) conj cs
  | _, [], _ => rfl
  | _, c :: cs, hρ => by
      simp only [substAll, evalAll, evalIn_subst c hρ, evalAll_substAll conj cs hρ]

end

/-- An instance of a condition with objects for its variables has the value of the condition
with the variables bound to those objects. -/
theorem evaluate_bind {vs : List Param} {t : List Argument} (ht : ∀ a ∈ t, a.isConst = true)
    (c : Condition) : evaluate pb holds (c.bind vs t) = evalIn pb holds (Subst.ofLists vs t) c := by
  have hρ : ∀ e ∈ Subst.ofLists vs t, e.2.isConst = true :=
    fun e he => ht _ (List.of_mem_zip he).2
  have h : evalIn pb holds [] (c.subst (Subst.ofLists vs t)) =
      evalIn pb holds (Subst.ofLists vs t ++ []) c := evalIn_subst c hρ
  rwa [List.append_nil] at h

/-- A quantification has the value of the junction of its instances over the objects. -/
theorem evaluate_quant (q : Quantifier) (vs : List Param) (c : Condition) :
    evaluate pb holds (.quant q vs c) =
      evalAll pb holds [] (q == .all) ((pb.bindings vs).map (c.bind vs)) := by
  rw [evaluate, evalIn_quant, evalAll_map]
  refine List.foldr_ext _ _ _ fun t ht acc => ?_
  rw [List.append_nil]
  exact congrArg (combine _ · acc) (evaluate_bind (groundArgs_of_mem_bindings ht).2 c).symm

/-! ## Values of junctions and literals -/

@[simp] theorem evalIn_tautology (σ : Subst) : evalIn pb holds σ tautology = some true := rfl

@[simp] theorem evalIn_contradiction (σ : Subst) : evalIn pb holds σ contradiction = some false :=
  rfl

theorem evalIn_build (σ : Subst) (k : Junction) (cs : List Condition) :
    evalIn pb holds σ (k.build cs) = evalAll pb holds σ (k == .conj) cs := by
  cases k <;> rfl

/-- Flattening nested sets of the same kind keeps the value of a set. -/
theorem evalAll_flatten (σ : Subst) {k : Junction} :
    ∀ {es flat : List Condition}, k.flatten es = some flat →
      evalAll pb holds σ (k == .conj) flat = evalAll pb holds σ (k == .conj) es
  | [], flat, h => by
      simp only [Junction.flatten, Option.some.injEq] at h
      rw [← h]
  | e :: es, flat, h => by
      simp only [Junction.flatten] at h
      split at h
      · rename_i nested hn
        obtain ⟨rest, hr, rfl⟩ := Option.map_eq_some_iff.mp h
        rw [evalAll_append, evalAll_flatten σ hr, evalAll, Junction.eq_build_of_members? hn,
          evalIn_build]
      · split at h
        · cases h
        · obtain ⟨rest, hr, rfl⟩ := Option.map_eq_some_iff.mp h
          rw [evalAll, evalAll, evalAll_flatten σ hr]

/-- A set with an absorbing element has the absorbing value, if it has a value. -/
theorem evalAll_of_flatten_eq_none (σ : Subst) {k : Junction} :
    ∀ {es : List Condition} {w : Bool}, k.flatten es = none →
      evalAll pb holds σ (k == .conj) es = some w → w = !(k == .conj)
  | [], _, h, _ => by simp [Junction.flatten] at h
  | e :: es, w, h, hw => by
      simp only [Junction.flatten] at h
      simp only [evalAll] at hw
      obtain ⟨a, b, ha, hb, rfl⟩ := combine_eq_some_iff.mp hw
      -- either `e` absorbs the set, or the rest has an absorbing element
      have hrest : k.flatten es = none → b = !(k == .conj) := fun hr => evalAll_of_flatten_eq_none σ hr hb
      split at h
      · rw [hrest (Option.map_eq_none_iff.mp h)]
        cases k <;> cases a <;> rfl
      · split at h
        · rename_i habs
          cases k
          · rw [eq_contradiction_of_isContradiction habs] at ha
            cases ha
            cases b <;> rfl
          · rw [eq_tautology_of_isTautology habs] at ha
            cases ha
            cases b <;> rfl
        · rw [hrest (Option.map_eq_none_iff.mp h)]
          cases k <;> cases a <;> rfl

/-- Normalizing a set that has a value keeps that value. -/
theorem evalIn_normalize (σ : Subst) {k : Junction} {es : List Condition} {w : Bool}
    (h : evalIn pb holds σ (k.build es) = some w) :
    evalIn pb holds σ (k.normalize es) = some w := by
  rw [evalIn_build] at h
  unfold Junction.normalize
  split
  · rename_i hf
    rw [evalAll_of_flatten_eq_none σ hf h, evalIn_build]
    cases k <;> rfl
  · rename_i e hf
    rw [← evalAll_flatten σ hf] at h
    simpa [evalAll] using h
  · rename_i flat _ hf
    rw [evalIn_build, evalAll_flatten σ hf, h]

theorem staticEquality_negate (l : Literal) :
    l.negate.staticEquality = l.staticEquality.map (!·) := by
  obtain ⟨pred, args, negated⟩ := l
  simp only [Literal.staticEquality, Literal.negate]
  by_cases hp : pred = equalityName
  · simp only [hp, if_true]
    rcases args with _ | ⟨a, _ | ⟨b, _ | ⟨c, rest⟩⟩⟩
    · rfl
    · cases a <;> rfl
    · cases a <;> cases b
      · simp
      · rfl
      · rfl
      · rename_i x y
        by_cases hxy : x.name = y.name <;> simp [hxy]
    · cases a <;> cases b <;> rfl
  · simp [hp]

/-- Equality literals whose value does not depend on a binding keep it under substitution. -/
theorem staticEquality_subst {l : Literal} {b : Bool} (σ : Subst) (h : l.staticEquality = some b) :
    (l.subst σ).staticEquality = some b := by
  obtain ⟨pred, args, negated⟩ := l
  simp only [Literal.staticEquality, Literal.subst] at h ⊢
  split at h
  · rename_i hp
    simp only [hp, if_true]
    split at h
    · exact h
    · rename_i x y
      split at h
      · rename_i hxy
        cases h
        simp only [List.map, Argument.subst, hxy]
        -- both variables get the same value
        cases σ.find? (·.1 == y.name) with
        | none => simp [hxy]
        | some e =>
            obtain ⟨k, v⟩ := e
            cases v <;> simp
      · cases h
    · cases h
  · cases h

theorem evalIn_lit_of_staticEquality {σ : Subst} {l : Literal} {b : Bool}
    (h : l.staticEquality = some b) : evalIn pb holds σ (.lit l) = some b := by
  simp only [evalIn, staticEquality_subst σ h]

/-- A negated literal has the negated value. -/
theorem evalIn_lit_negate (σ : Subst) (l : Literal) :
    evalIn pb holds σ (.lit l.negate) = (evalIn pb holds σ (.lit l)).map (!·) := by
  have hsubst : l.negate.subst σ = (l.subst σ).negate := rfl
  simp only [evalIn, hsubst, staticEquality_negate]
  cases (l.subst σ).staticEquality with
  | some b => rfl
  | none =>
      simp only [Option.map_none, Literal.negate, Option.map_map]
      congr 1
      funext names
      simp

/-! ## Simplification keeps values -/

theorem simplifyAll_eq_map (neg : Bool) (cs : List Condition) :
    simplifyAll neg cs = cs.map (simplify neg) := by
  induction cs with
  | nil => rfl
  | cons c cs ih => rw [simplifyAll, ih, List.map_cons]

theorem dual_beq_all (neg : Bool) (q : Quantifier) :
    ((if neg then q.dual else q) == .all) = xor (q == .all) neg := by
  cases neg <;> cases q <;> rfl

mutual

/-- Negation normal form keeps every value a condition has, negated under `neg`. -/
theorem evalIn_simplify :
    ∀ (neg : Bool) {σ : Subst} {v : Bool} (c : Condition),
      evalIn pb holds σ c = some v → evalIn pb holds σ (c.simplify neg) = some (xor v neg)
  | neg, σ, v, .lit l, h => by
      have hl' : evalIn pb holds σ (.lit (if neg then l.negate else l)) = some (xor v neg) := by
        cases neg
        · simpa using h
        · simp [evalIn_lit_negate, h]
      simp only [simplify]
      split
      · rename_i hs
        rw [evalIn_lit_of_staticEquality hs] at hl'
        exact hl'
      · rename_i hs
        rw [evalIn_lit_of_staticEquality hs] at hl'
        exact hl'
      · exact hl'
  | neg, σ, v, .and cs, h => by
      have hall := evalAll_simplifyAll neg cs h
      simp only [simplify]
      apply evalIn_normalize
      rw [evalIn_build]
      cases neg <;> exact hall
  | neg, σ, v, .or cs, h => by
      have hall := evalAll_simplifyAll neg cs h
      simp only [simplify]
      apply evalIn_normalize
      rw [evalIn_build]
      cases neg <;> exact hall
  | neg, σ, v, .not c, h => by
      simp only [evalIn, Option.map_eq_some_iff] at h
      obtain ⟨w, hw, rfl⟩ := h
      simp only [simplify]
      rw [evalIn_simplify (!neg) c hw]
      cases w <;> cases neg <;> rfl
  | neg, σ, v, .quant q vs c, h => by
      rw [evalIn_quant] at h
      -- every binding of the body has a value, which its normal form keeps
      have hinst : ∀ t ∈ pb.bindings vs, ∀ w,
          evalIn pb holds (Subst.ofLists vs t ++ σ) c = some w →
            evalIn pb holds (Subst.ofLists vs t ++ σ) (c.simplify neg) = some (xor w neg) :=
        fun t _ w hw => evalIn_simplify neg c hw
      have hneg := foldr_combine_xor hinst h
      rw [← dual_beq_all] at hneg
      rcases simplify_quant neg q vs c with ⟨heq, hv | ⟨ht, hq⟩ | ⟨hf, hq⟩⟩ | heq <;> rw [heq]
      · subst hv
        simp only [Problem.bindings, Problem.candidates, List.map_nil, cartesian_nil,
          List.foldr_cons, List.foldr_nil, combine_unit_right] at h
        exact evalIn_simplify neg c h
      · rw [ht, evalIn_tautology, ← hneg, hq]
        simp only [ht, evalIn_tautology]
        exact (foldr_combine_unit _).symm
      · rw [hf, evalIn_contradiction, ← hneg, hq]
        simp only [hf, evalIn_contradiction]
        exact (foldr_combine_unit _).symm
      · rw [evalIn_quant]
        exact hneg
  | _, _, _, .when .., h => by cases h
  | _, _, _, .numEffect _, h => by cases h
  | _, _, _, .compare _, h => by cases h

theorem evalAll_simplifyAll (neg : Bool) {σ : Subst} :
    ∀ {conj v : Bool} (cs : List Condition), evalAll pb holds σ conj cs = some v →
      evalAll pb holds σ (xor conj neg) (simplifyAll neg cs) = some (xor v neg)
  | conj, v, [], h => by
      simp only [evalAll, Option.some.injEq] at h
      rw [← h]
      rfl
  | conj, v, c :: cs, h => by
      simp only [simplifyAll, evalAll] at h ⊢
      obtain ⟨a, b, ha, hb, rfl⟩ := combine_eq_some_iff.mp h
      rw [evalIn_simplify neg c ha, evalAll_simplifyAll neg cs hb, combine_xor]

end

/-! ## Literals with a fixed value -/

mutual

/-- No literal of the condition outside quantifications is an equality whose value is fixed.
Grounding reads such literals as atoms; it simplifies each instance of a quantification
again, so quantified bodies need not be looked at. -/
def StaticFree : Condition → Prop
  | .lit l => l.staticEquality = none
  | .and cs => StaticFreeAll cs
  | .or cs => StaticFreeAll cs
  | _ => True

def StaticFreeAll : List Condition → Prop
  | [] => True
  | c :: cs => StaticFree c ∧ StaticFreeAll cs

end

@[simp] theorem staticFreeAll_iff {cs : List Condition} :
    StaticFreeAll cs ↔ ∀ c ∈ cs, c.StaticFree := by
  induction cs with
  | nil => simp [StaticFreeAll]
  | cons c cs ih => simp [StaticFreeAll, ih]

theorem staticFree_build (k : Junction) (cs : List Condition) :
    (k.build cs).StaticFree ↔ ∀ c ∈ cs, c.StaticFree := by
  cases k <;> simp [Junction.build, StaticFree]

mutual

/-- Negation normal form folds every equality literal whose value is fixed. -/
theorem staticFree_simplify : ∀ (neg : Bool) (c : Condition), (c.simplify neg).StaticFree
  | neg, .lit l => by
      simp only [simplify]
      split
      · simp [tautology, StaticFree]
      · simp [contradiction, StaticFree]
      · rename_i hs
        exact hs
  | neg, .and cs => by
      simp only [simplify]
      exact Junction.normalize_of_forall staticFree_build
        (staticFreeAll_iff.mp (staticFreeAll_simplifyAll neg cs))
  | neg, .or cs => by
      simp only [simplify]
      exact Junction.normalize_of_forall staticFree_build
        (staticFreeAll_iff.mp (staticFreeAll_simplifyAll neg cs))
  | neg, .not c => staticFree_simplify (!neg) c
  | neg, .quant q vs c => by
      rcases simplify_quant neg q vs c with ⟨heq, -⟩ | heq <;> rw [heq]
      · exact staticFree_simplify neg c
      · trivial
  | _, .when p c => by
      have hc := staticFree_simplify false c
      simp only [simplify]
      split
      · simp [tautology, StaticFree]
      · split
        · exact hc
        · trivial
  | _, .numEffect _ => trivial
  | neg, .compare c => by
      simp only [simplify]
      split
      · simp [tautology, StaticFree]
      · simp [contradiction, StaticFree]
      · trivial

theorem staticFreeAll_simplifyAll (neg : Bool) :
    ∀ cs : List Condition, StaticFreeAll (simplifyAll neg cs)
  | [] => trivial
  | c :: cs => ⟨staticFree_simplify neg c, staticFreeAll_simplifyAll neg cs⟩

end

end Condition

end Pddl
