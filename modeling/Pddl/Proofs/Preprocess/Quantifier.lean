import Pddl.Preprocess.Quantifier
import Pddl.Proofs.Preprocess.Closed
import Pddl.Proofs.Condition.Disjunctive
/-!
# Quantifier elimination

`eliminateQuantifiers` replaces each quantification, innermost first, by the junction of its
instances over the objects. The traversal keeps every node, so it acts as a structural map
with one equation per kind of node (`eliminateQuantifiers_and`, …, `eliminateQuantifiers_quant`).

Three facts follow from these equations:

* no quantification is left (`quantFree_eliminateQuantifiers`): binding objects into a
  condition keeps the kind of each of its nodes, so the instances of a quantifier-free body
  are quantifier-free;
* no free variable is brought in (`freeVars_eliminateQuantifiers`): the result stays bound in
  the names of the free variables of the condition;
* the value of a condition is kept exactly, under every interpretation and every binding of
  its variables (`evalIn_eliminateQuantifiers`). Expanding a single quantification keeps its
  value whatever its body (`evalIn_expandQuantifier`), because evaluation puts the binding of
  the quantified variables in front of its environment, just where substitution puts the
  objects. Since the body's value is kept under every environment, it does not matter that the
  inner quantifications are expanded before the outer variables are bound.

With the normal forms keeping every value a condition has, normalizing keeps it too
(`quantifier_elimination_keeps_values`).
-/

namespace Pddl

/-- A tuple picks an element of each list, so none of them is empty. -/
theorem Picks.ne_nil {α : Type} {t : List α} {ls : List (List α)} (h : Picks t ls) :
    ∀ l ∈ ls, l ≠ [] := by
  induction h with
  | nil => simp
  | cons hx _ ih =>
      intro l hl
      rcases List.mem_cons.mp hl with rfl | hl
      · exact List.ne_nil_of_mem hx
      · exact ih l hl

/-- Variables of which one has a type without objects have no binding. -/
theorem Problem.bindings_eq_nil {pb : Problem} {vs : List Param}
    (h : ∃ v ∈ vs, pb.instancesOf v.type = []) : pb.bindings vs = [] := by
  obtain ⟨v, hv, hnone⟩ := h
  refine List.eq_nil_iff_forall_not_mem.mpr fun t ht => ?_
  -- a binding would pick an object of the type of `v`
  have hmem : [] ∈ pb.candidates vs := List.mem_map.mpr ⟨v, hv, by rw [hnone]; rfl⟩
  exact ((mem_cartesian _ _).mp ht).ne_nil [] hmem rfl

namespace Condition

variable {pb : Problem}

/-! ## Elimination node by node -/

theorem transformBottomUp_expandQuantifier (pb : Problem) (c : Condition) :
    Id.run (c.transformBottomUp fun d => pure (some (d.expandQuantifier pb))) =
      some (c.eliminateQuantifiers pb) := by
  cases c <;> rfl

theorem transformBottomUpAll_expandQuantifier (pb : Problem) (cs : List Condition) :
    Id.run (transformBottomUpAll (fun d => pure (some (d.expandQuantifier pb))) cs) =
      cs.map (eliminateQuantifiers pb) := by
  induction cs with
  | nil => rfl
  | cons c cs ih =>
      have hc := transformBottomUp_expandQuantifier pb c
      simp only [transformBottomUpAll, Id.run_bind] at ih hc ⊢
      rw [hc, ih]
      rfl

@[simp] theorem eliminateQuantifiers_and (cs : List Condition) :
    (Condition.and cs).eliminateQuantifiers pb = .and (cs.map (eliminateQuantifiers pb)) := by
  have h := transformBottomUpAll_expandQuantifier pb cs
  simp only [eliminateQuantifiers, transformBottomUp, Id.run_bind] at h ⊢
  rw [h]
  rfl

@[simp] theorem eliminateQuantifiers_or (cs : List Condition) :
    (Condition.or cs).eliminateQuantifiers pb = .or (cs.map (eliminateQuantifiers pb)) := by
  have h := transformBottomUpAll_expandQuantifier pb cs
  simp only [eliminateQuantifiers, transformBottomUp, Id.run_bind] at h ⊢
  rw [h]
  rfl

@[simp] theorem eliminateQuantifiers_not (c : Condition) :
    (Condition.not c).eliminateQuantifiers pb = .not (c.eliminateQuantifiers pb) := by
  have h := transformBottomUp_expandQuantifier pb c
  simp only [eliminateQuantifiers, transformBottomUp, Id.run_bind] at h ⊢
  rw [h]
  rfl

/-- A quantification is expanded once its body is free of quantifications. -/
@[simp] theorem eliminateQuantifiers_quant (q : Quantifier) (vs : List Param) (c : Condition) :
    (Condition.quant q vs c).eliminateQuantifiers pb =
      (Condition.quant q vs (c.eliminateQuantifiers pb)).expandQuantifier pb := by
  have h := transformBottomUp_expandQuantifier pb c
  simp only [eliminateQuantifiers, transformBottomUp, Id.run_bind] at h ⊢
  rw [h]
  rfl

@[simp] theorem eliminateQuantifiers_when (p c : Condition) :
    (Condition.when p c).eliminateQuantifiers pb =
      .when (p.eliminateQuantifiers pb) (c.eliminateQuantifiers pb) := by
  have hp := transformBottomUp_expandQuantifier pb p
  have hc := transformBottomUp_expandQuantifier pb c
  simp only [eliminateQuantifiers, transformBottomUp, Id.run_bind] at hp hc ⊢
  rw [hp, hc]
  rfl

@[simp] theorem eliminateQuantifiers_lit (l : Literal) :
    (Condition.lit l).eliminateQuantifiers pb = .lit l := rfl

@[simp] theorem eliminateQuantifiers_numEffect (e : NumericEffect) :
    (Condition.numEffect e).eliminateQuantifiers pb = .numEffect e := rfl

@[simp] theorem eliminateQuantifiers_compare (c : Comparison) :
    (Condition.compare c).eliminateQuantifiers pb = .compare c := rfl

/-- Expanding a quantification gives the conjunction (`forall`) or disjunction (`exists`) of
its instances. -/
theorem expandQuantifier_quant (q : Quantifier) (vs : List Param) (c : Condition) :
    (Condition.quant q vs c).expandQuantifier pb =
      (if q = .all then Junction.conj else Junction.disj).build
        ((pb.bindings vs).map (c.bind vs)) := by
  cases q <;> rfl

/-- A variable whose type has no object leaves a quantification without instance: `forall`
becomes the constant true and `exists` the constant false. -/
theorem eliminateQuantifiers_of_no_instance {q : Quantifier} {vs : List Param} (c : Condition)
    (h : ∃ v ∈ vs, pb.instancesOf v.type = []) :
    (Condition.quant q vs c).eliminateQuantifiers pb =
      if q = .all then tautology else contradiction := by
  rw [eliminateQuantifiers_quant, expandQuantifier_quant, Problem.bindings_eq_nil h]
  cases q <;> rfl

/-! ## No quantification is left -/

/-- The condition has no quantification. -/
abbrev QuantFree (c : Condition) : Prop := c.Everywhere fun n => ∀ q vs b, n ≠ .quant q vs b

/-- Expanding a quantification with a quantifier-free body leaves no quantification. -/
theorem quantFree_expandQuantifier {q : Quantifier} {vs : List Param} {c : Condition}
    (h : c.QuantFree) : ((Condition.quant q vs c).expandQuantifier pb).QuantFree := by
  rw [expandQuantifier_quant, QuantFree, everywhere_build]
  refine ⟨by cases q <;> exact nofun, fun d hd => ?_⟩
  obtain ⟨t, -, rfl⟩ := List.mem_map.mp hd
  exact everywhere_subst kindProperty_quantFree _ h

mutual

/-- Elimination leaves no quantification. -/
theorem quantFree_eliminateQuantifiers : ∀ c : Condition, (c.eliminateQuantifiers pb).QuantFree
  | .lit _ => nofun
  | .and cs => by
      rw [eliminateQuantifiers_and]
      exact ⟨nofun, quantFreeAll_map_eliminateQuantifiers cs⟩
  | .or cs => by
      rw [eliminateQuantifiers_or]
      exact ⟨nofun, quantFreeAll_map_eliminateQuantifiers cs⟩
  | .not c => by
      rw [eliminateQuantifiers_not]
      exact ⟨nofun, quantFree_eliminateQuantifiers c⟩
  | .quant q vs c => by
      rw [eliminateQuantifiers_quant]
      exact quantFree_expandQuantifier (quantFree_eliminateQuantifiers c)
  | .when p c => by
      rw [eliminateQuantifiers_when]
      exact ⟨nofun, quantFree_eliminateQuantifiers p, quantFree_eliminateQuantifiers c⟩
  | .numEffect _ => nofun
  | .compare _ => nofun

theorem quantFreeAll_map_eliminateQuantifiers : ∀ cs : List Condition,
    EverywhereAll (fun n => ∀ q vs b, n ≠ .quant q vs b) (cs.map (eliminateQuantifiers pb))
  | [] => trivial
  | c :: cs => ⟨quantFree_eliminateQuantifiers c, quantFreeAll_map_eliminateQuantifiers cs⟩

end

mutual

/-- Elimination keeps a property of the kinds of nodes: a quantification becomes a conjunction
or a disjunction of instances of its body, and instances keep the kinds of nodes. -/
theorem everywhere_eliminateQuantifiers {P : Condition → Prop} (hP : KindProperty P) :
    ∀ {c : Condition}, c.Everywhere P → (c.eliminateQuantifiers pb).Everywhere P
  | .lit _, h => h
  | .and cs, h => by
      rw [eliminateQuantifiers_and]
      exact ⟨hP.of_sameKind h.1 trivial, everywhereAll_map_eliminateQuantifiers hP h.2⟩
  | .or cs, h => by
      rw [eliminateQuantifiers_or]
      exact ⟨hP.of_sameKind h.1 trivial, everywhereAll_map_eliminateQuantifiers hP h.2⟩
  | .not _, h => by
      rw [eliminateQuantifiers_not]
      exact ⟨hP.of_sameKind h.1 trivial, everywhere_eliminateQuantifiers hP h.2⟩
  | .quant q vs c, h => by
      have hc := everywhere_eliminateQuantifiers hP h.2
      rw [eliminateQuantifiers_quant, expandQuantifier_quant, everywhere_build_iff hP.junction]
      intro d hd
      obtain ⟨t, -, rfl⟩ := List.mem_map.mp hd
      exact everywhere_subst hP _ hc
  | .when .., h => by
      rw [eliminateQuantifiers_when]
      exact ⟨hP.of_sameKind h.1 trivial, everywhere_eliminateQuantifiers hP h.2.1,
        everywhere_eliminateQuantifiers hP h.2.2⟩
  | .numEffect _, h => h
  | .compare _, h => h

theorem everywhereAll_map_eliminateQuantifiers {P : Condition → Prop} (hP : KindProperty P) :
    ∀ {cs : List Condition}, EverywhereAll P cs → EverywhereAll P (cs.map (eliminateQuantifiers pb))
  | [], _ => trivial
  | _ :: _, h => ⟨everywhere_eliminateQuantifiers hP h.1, everywhereAll_map_eliminateQuantifiers hP h.2⟩

end

/-- Normalizing keeps a property of the kinds of nodes. -/
theorem everywhere_normalize {P : Condition → Prop} (hP : KindProperty P) (toDnf : Bool)
    {c : Condition} (h : c.Everywhere P) : (c.normalize pb toDnf).Everywhere P := by
  have he : (c.eliminateQuantifiers pb).Everywhere P := everywhere_eliminateQuantifiers hP h
  have hs := everywhere_simplify hP false he
  cases toDnf
  · exact hs
  · exact everywhere_dnf hP _ hs

/-! ## No free variable is brought in -/

/-- The names of the free variables after elimination are names of free variables before. -/
theorem freeVars_eliminateQuantifiers (c : Condition) :
    (c.eliminateQuantifiers pb).freeVars.map Param.name ⊆ c.freeVars.map Param.name := by
  -- the condition is bound in the names of its free variables, and elimination keeps that
  have hc : c.BoundIn (c.freeVars.map Param.name) := by
    simpa [freeVars] using boundIn_collectFree [] [] c
  have he : (c.eliminateQuantifiers pb).BoundIn (c.freeVars.map Param.name) :=
    boundIn_eliminateQuantifiers hc
  intro n hn
  obtain ⟨v, hv, rfl⟩ := List.mem_map.mp hn
  rcases mem_collectFree _ he (fun n hn => .inr hn) v hv with hv | hv
  · cases hv
  · exact hv

/-! ## Values are kept -/

section Values

variable {holds : String → List String → Bool}

/-- Expanding one quantification keeps its value, whatever its body: each instance has the
value of the body with the binding in front of the environment. -/
theorem evalIn_expandQuantifier (σ : Subst) :
    ∀ c : Condition, evalIn pb holds σ (c.expandQuantifier pb) = evalIn pb holds σ c
  | .quant q vs body => by
      have hinst : ∀ t ∈ pb.bindings vs,
          evalIn pb holds σ (body.bind vs t) = evalIn pb holds (Subst.ofLists vs t ++ σ) body :=
        fun t ht => evalIn_subst body fun e he => (groundArgs_of_mem_bindings ht).2 _ (List.of_mem_zip he).2
      rw [expandQuantifier_quant, evalIn_build, evalIn_quant, evalAll_map]
      have hk : ((if q = .all then Junction.conj else Junction.disj) == .conj) = (q == .all) := by
        cases q <;> rfl
      rw [hk]
      exact List.foldr_ext _ _ _ fun t ht acc => by rw [hinst t ht]
  | .lit _ => rfl
  | .and _ => rfl
  | .or _ => rfl
  | .not _ => rfl
  | .when .. => rfl
  | .numEffect _ => rfl
  | .compare _ => rfl

mutual

/-- Elimination keeps the value of a condition under every interpretation and every binding
of its variables. -/
theorem evalIn_eliminateQuantifiers :
    ∀ (σ : Subst) (c : Condition), evalIn pb holds σ (c.eliminateQuantifiers pb) = evalIn pb holds σ c
  | _, .lit _ => rfl
  | σ, .and cs => by
      rw [eliminateQuantifiers_and]
      exact evalAll_map_eliminateQuantifiers σ true cs
  | σ, .or cs => by
      rw [eliminateQuantifiers_or]
      exact evalAll_map_eliminateQuantifiers σ false cs
  | σ, .not c => by
      rw [eliminateQuantifiers_not]
      simp only [evalIn, evalIn_eliminateQuantifiers σ c]
  | σ, .quant q vs c => by
      -- the body keeps its value under each binding of the quantified variables
      have ih : ∀ σ', evalIn pb holds σ' (c.eliminateQuantifiers pb) = evalIn pb holds σ' c :=
        fun σ' => evalIn_eliminateQuantifiers σ' c
      rw [eliminateQuantifiers_quant, evalIn_expandQuantifier, evalIn_quant, evalIn_quant]
      simp only [ih]
  | _, .when .. => rfl
  | _, .numEffect _ => rfl
  | _, .compare _ => rfl

theorem evalAll_map_eliminateQuantifiers (σ : Subst) (conj : Bool) : ∀ cs : List Condition,
    evalAll pb holds σ conj (cs.map (eliminateQuantifiers pb)) = evalAll pb holds σ conj cs
  | [] => rfl
  | c :: cs => by
      simp only [List.map_cons, evalAll, evalIn_eliminateQuantifiers σ c,
        evalAll_map_eliminateQuantifiers σ conj cs]

end

/-- Normalizing keeps every value a condition has, in disjunctive normal form or not. -/
theorem evaluate_normalize {c : Condition} {v : Bool} (toDnf : Bool)
    (h : c.evaluate pb holds = some v) : (c.normalize pb toDnf).evaluate pb holds = some v := by
  have he : (c.eliminateQuantifiers pb).evaluate pb holds = some v := by
    rw [evaluate, evalIn_eliminateQuantifiers]
    exact h
  have hs : ((c.eliminateQuantifiers pb).simplify false).evaluate pb holds = some v := by
    have h' := evalIn_simplify false _ he
    rwa [Bool.xor_false] at h'
  unfold normalize
  split
  · exact evalIn_dnf _ hs
  · exact hs

end Values

/-! ## Main statement -/

/-- Quantifier elimination leaves no quantification and brings in no free variable name, and
the result has the value of the condition under every closed-world interpretation; so the
normal forms of the condition, disjunctive or not, keep every value it has. A quantification
over a type without objects becomes the constant true (`forall`) or false (`exists`). -/
theorem quantifier_elimination_keeps_values (pb : Problem) (c : Condition) :
    (c.eliminateQuantifiers pb).QuantFree ∧
      (c.eliminateQuantifiers pb).freeVars.map Param.name ⊆ c.freeVars.map Param.name ∧
      (∀ holds, (c.eliminateQuantifiers pb).evaluate pb holds = c.evaluate pb holds) ∧
      (∀ holds v, c.evaluate pb holds = some v →
        ∀ toDnf, (c.normalize pb toDnf).evaluate pb holds = some v) ∧
      ∀ q vs body, (∃ v ∈ vs, pb.instancesOf v.type = []) →
        (Condition.quant q vs body).eliminateQuantifiers pb =
          if q = .all then tautology else contradiction :=
  ⟨quantFree_eliminateQuantifiers c, freeVars_eliminateQuantifiers c,
    fun _ => evalIn_eliminateQuantifiers [] c,
    fun _ _ h toDnf => evaluate_normalize toDnf h,
    fun _ _ body h => eliminateQuantifiers_of_no_instance body h⟩

/-- Two balls, and no box. -/
def twoBalls : Problem where
  objects := [⟨"b1", "ball"⟩, ⟨"b2", "ball"⟩]
  predicates := [⟨"near", [⟨"x", "ball"⟩, ⟨"y", "ball"⟩]⟩]

/-- Every ball is near some ball, with the variable of the inner quantification shadowing the
outer one in a second conjunct. -/
def everyBallNearOne : Condition :=
  .quant .all [⟨"x", "ball"⟩]
    (.and [.quant .any [⟨"y", "ball"⟩] (.lit ⟨"near", [.var ⟨"x", "ball"⟩, .var ⟨"y", "ball"⟩], false⟩),
      .quant .any [⟨"x", "ball"⟩] (.lit ⟨"near", [.var ⟨"x", "ball"⟩, .var ⟨"x", "ball"⟩], false⟩)])

/-- With each ball near only itself, the condition and its disjunctive normal form hold, and
every box is empty since there is no box. -/
theorem every_ball_near_one_after_normalizing :
    everyBallNearOne.evaluate twoBalls (fun _ names => names == ["b1", "b1"] || names == ["b2", "b2"]) =
        some true ∧
      (everyBallNearOne.normalize twoBalls true).evaluate twoBalls
          (fun _ names => names == ["b1", "b1"] || names == ["b2", "b2"]) = some true ∧
      (∃ v ∈ [(⟨"b", "box"⟩ : Param)], twoBalls.instancesOf v.type = []) ∧
      (Condition.quant .all [⟨"b", "box"⟩] (.lit ⟨"empty", [.var ⟨"b", "box"⟩], false⟩)).eliminateQuantifiers
          twoBalls = tautology :=
  have h : everyBallNearOne.evaluate twoBalls
      (fun _ names => names == ["b1", "b1"] || names == ["b2", "b2"]) = some true := by decide
  have hbox : ∃ v ∈ [(⟨"b", "box"⟩ : Param)], twoBalls.instancesOf v.type = [] :=
    ⟨_, List.mem_singleton_self _, by cbv⟩
  ⟨h, (quantifier_elimination_keeps_values twoBalls everyBallNearOne).2.2.2.1 _ _ h true, hbox,
    (quantifier_elimination_keeps_values twoBalls everyBallNearOne).2.2.2.2 .all _ _ hbox⟩

end Condition

end Pddl
