import Pddl.Proofs.Condition.Evaluate
/-!
# Substitution of objects is capture-free

`bind vars values` replaces the variables named in `vars` by the values at the same positions,
and a quantification hides the names it binds from the substitution. This module lists the
argument positions of a condition, each with the names that the quantifications around it bind
(`occurrences`), and states substitution position by position: an argument that a
quantification around it binds is kept, and any other takes its value under the substitution
(`occurrences_subst`). `freeVars` reads the free variables off the same list, keeping the first
argument of each name that no quantification around it binds (`freeVars_eq_foldl`).

From these:

* binding objects to `vars` removes from the free variables exactly those with a name of
  `vars`, and keeps the others in their order (`freeVars_bind`);
* binding nothing changes nothing (`subst_nil`);
* binding objects and then more values is binding both at once, the first binding of a name
  winning (`subst_subst`).
-/

namespace Pddl

instance Argument.decBoundIn (names : List String) : DecidablePred (Argument.BoundIn names)
  | .const _ => isTrue trivial
  | .var p => inferInstanceAs (Decidable (p.name ∈ names))

theorem Subst.without_nil (σ : Subst) : σ.without [] = σ := by
  simp [Subst.without]

theorem Subst.without_without (σ : Subst) (A B : List String) :
    (σ.without A).without B = σ.without (A ++ B) := by
  simp only [Subst.without, List.filter_filter, List.contains_append, Bool.not_or]
  congr 1
  funext e
  exact Bool.and_comm _ _

/-- Below the names of `B`, an argument they bind is kept, and any other takes its value under
the whole substitution. -/
theorem Argument.subst_without (σ : Subst) (B : List String) (a : Argument) :
    a.subst (σ.without B) = if a.BoundIn B then a else a.subst σ := by
  cases a with
  | const o => simp [Argument.subst]
  | var p =>
      by_cases hp : p.name ∈ B
      · -- no entry of the name is left
        have hnone : (σ.without B).find? (·.1 == p.name) = none :=
          List.find?_eq_none.mpr fun e he hep =>
            (mem_without.mp he).2 (by rw [beq_iff_eq.mp hep]; exact hp)
        simp [Argument.subst, hnone, Argument.BoundIn, hp]
      · simp [Argument.subst, find?_without_of_not_mem hp, Argument.BoundIn, hp]

namespace Condition

/-! ## Argument positions -/

mutual

/-- The arguments of the condition in the order `freeVars` visits them, each with `bound` and
the names bound by the quantifications around it. -/
def occurrences (bound : List String) : Condition → List (List String × Argument)
  | .lit l => l.args.map (bound, ·)
  | .and cs => occurrencesAll bound cs
  | .or cs => occurrencesAll bound cs
  | .not c => occurrences bound c
  | .quant _ vs c => occurrences (bound ++ vs.map Param.name) c
  | .when p c => occurrences bound p ++ occurrences bound c
  | .numEffect e => (e.target.args ++ e.value.arguments).map (bound, ·)
  | .compare c => (c.lhs.arguments ++ c.rhs.arguments).map (bound, ·)

def occurrencesAll (bound : List String) : List Condition → List (List String × Argument)
  | [] => []
  | c :: cs => occurrences bound c ++ occurrencesAll bound cs

end

/-! ## Free variables -/

/-- One step of `freeVars`: a variable that no quantification around it binds is listed,
unless a variable of its name already is. -/
def addFree (free : List Param) : List String × Argument → List Param
  | (bound, .var p) =>
      if bound.contains p.name || free.any (·.name == p.name) then free else free ++ [p]
  | (_, .const _) => free

theorem visitArgs_eq_foldl (bound : List String) :
    ∀ (free : List Param) (args : List Argument),
      visitArgs bound free args = (args.map (bound, ·)).foldl addFree free
  | _, [] => rfl
  | free, .const _ :: rest => visitArgs_eq_foldl bound free rest
  | free, .var p :: rest => by
      simp only [visitArgs, List.map_cons, List.foldl_cons, addFree]
      split <;> exact visitArgs_eq_foldl bound _ rest

mutual

theorem collectFree_eq_foldl :
    ∀ (bound : List String) (free : List Param) (c : Condition),
      collectFree bound free c = (c.occurrences bound).foldl addFree free
  | bound, free, .lit l => visitArgs_eq_foldl bound free l.args
  | bound, free, .and cs => collectFreeAll_eq_foldl bound free cs
  | bound, free, .or cs => collectFreeAll_eq_foldl bound free cs
  | bound, free, .not c => collectFree_eq_foldl bound free c
  | bound, free, .quant _ vs c => collectFree_eq_foldl (bound ++ vs.map Param.name) free c
  | bound, free, .when p c => by
      rw [collectFree, collectFree_eq_foldl bound free p, collectFree_eq_foldl bound _ c,
        occurrences, List.foldl_append]
  | bound, free, .numEffect _ => visitArgs_eq_foldl bound free _
  | bound, free, .compare _ => visitArgs_eq_foldl bound free _

theorem collectFreeAll_eq_foldl :
    ∀ (bound : List String) (free : List Param) (cs : List Condition),
      collectFreeAll bound free cs = (occurrencesAll bound cs).foldl addFree free
  | _, _, [] => rfl
  | bound, free, c :: cs => by
      rw [collectFreeAll, collectFree_eq_foldl bound free c, collectFreeAll_eq_foldl bound _ cs,
        occurrencesAll, List.foldl_append]

end

/-- The free variables are the first argument of each name that no quantification around it
binds, in order. -/
theorem freeVars_eq_foldl (c : Condition) : c.freeVars = (c.occurrences []).foldl addFree [] :=
  collectFree_eq_foldl [] [] c

/-! ## Substitution position by position -/

mutual

/-- Substituting below the names of `bound` keeps the positions and their scopes; at each
position the argument is substituted without the names of its scope. -/
theorem occurrences_subst :
    ∀ (σ : Subst) (bound : List String) (c : Condition),
      (c.subst (σ.without bound)).occurrences bound =
        (c.occurrences bound).map fun o => (o.1, o.2.subst (σ.without o.1))
  | σ, bound, .lit l => by simp [subst, occurrences, Literal.subst]
  | σ, bound, .and cs => occurrencesAll_substAll σ bound cs
  | σ, bound, .or cs => occurrencesAll_substAll σ bound cs
  | σ, bound, .not c => occurrences_subst σ bound c
  | σ, bound, .quant _ vs c => by
      rw [subst, occurrences, occurrences, Subst.without_without]
      exact occurrences_subst σ _ c
  | σ, bound, .when p c => by
      rw [subst, occurrences, occurrences, occurrences_subst σ bound p,
        occurrences_subst σ bound c, List.map_append]
  | σ, bound, .numEffect e => by
      simp [subst, occurrences, NumericEffect.subst, FluentApp.subst, NumExpr.arguments_subst,
        Function.comp_def]
  | σ, bound, .compare c => by
      simp [subst, occurrences, Comparison.subst, NumExpr.arguments_subst, Function.comp_def]

theorem occurrencesAll_substAll :
    ∀ (σ : Subst) (bound : List String) (cs : List Condition),
      occurrencesAll bound (substAll (σ.without bound) cs) =
        (occurrencesAll bound cs).map fun o => (o.1, o.2.subst (σ.without o.1))
  | _, _, [] => rfl
  | σ, bound, c :: cs => by
      rw [substAll, occurrencesAll, occurrencesAll, occurrences_subst σ bound c,
        occurrencesAll_substAll σ bound cs, List.map_append]

end

/-- Binding keeps every argument that a quantification around it binds, and gives every other
its value under the substitution of `vars` by `values`. -/
theorem occurrences_bind (vars : List Param) (values : List Argument) (c : Condition) :
    (c.bind vars values).occurrences [] =
      (c.occurrences []).map fun o =>
        (o.1, if o.2.BoundIn o.1 then o.2 else o.2.subst (Subst.ofLists vars values)) := by
  have h := occurrences_subst (Subst.ofLists vars values) [] c
  rw [Subst.without_nil] at h
  rw [bind, h]
  exact List.map_congr_left fun o _ => by rw [Argument.subst_without]

/-! ## Free variables of a binding -/

section Binding

variable {σ : Subst}

/-- What `addFree` collects loses exactly the names with an entry, when objects replace the
variables of those names that no quantification around them binds. -/
theorem addFree_subst (hσ : ∀ e ∈ σ, e.2.isConst = true) (free : List Param)
    (o : List String × Argument) :
    addFree (free.filter fun p => p.name ∉ σ.map Prod.fst)
        (o.1, if o.2.BoundIn o.1 then o.2 else o.2.subst σ) =
      (addFree free o).filter fun p => p.name ∉ σ.map Prod.fst := by
  obtain ⟨B, a⟩ := o
  cases a with
  | const x => simp [Argument.BoundIn, addFree]
  | var p =>
      by_cases hB : p.name ∈ B
      · simp [Argument.BoundIn, hB, addFree]
      · simp only [Argument.BoundIn, hB, if_false]
        cases hfind : σ.find? (·.1 == p.name) with
        | some e =>
            -- a name with an entry is replaced by an object and leaves the list
            have hsome := List.find?_some hfind
            have hkey : p.name ∈ σ.map Prod.fst :=
              List.mem_map.mpr ⟨e, List.mem_of_find?_eq_some hfind, beq_iff_eq.mp hsome⟩
            have hv := hσ e (List.mem_of_find?_eq_some hfind)
            obtain ⟨k, v⟩ := e
            cases v with
            | var _ => cases hv
            | const x =>
                simp only [Argument.subst, hfind, addFree]
                split <;> simp [List.filter_append, hkey]
        | none =>
            -- a name without an entry stays a variable, and the filter keeps its namesakes
            have hkey : p.name ∉ σ.map Prod.fst := fun hmem => by
              obtain ⟨e, he, hep⟩ := List.mem_map.mp hmem
              exact List.find?_eq_none.mp hfind e he (by simp [hep])
            have hany : ((free.filter fun q => q.name ∉ σ.map Prod.fst).any (·.name == p.name)) =
                free.any (·.name == p.name) := by
              simp only [List.any_filter]
              congr 1
              funext q
              by_cases hq : q.name = p.name <;> simp [hq, hkey]
            simp only [Argument.subst, hfind, addFree, hany]
            split <;> simp [List.filter_append, hkey]

theorem foldl_addFree_subst (hσ : ∀ e ∈ σ, e.2.isConst = true) :
    ∀ (os : List (List String × Argument)) (free : List Param),
      (os.map fun o => (o.1, if o.2.BoundIn o.1 then o.2 else o.2.subst σ)).foldl addFree
          (free.filter fun p => p.name ∉ σ.map Prod.fst) =
        (os.foldl addFree free).filter fun p => p.name ∉ σ.map Prod.fst
  | [], _ => rfl
  | o :: os, free => by
      rw [List.map_cons, List.foldl_cons, List.foldl_cons, addFree_subst hσ free o]
      exact foldl_addFree_subst hσ os _

end Binding

/-- Binding objects to `vars` removes from the free variables exactly those with a name of
`vars`, and keeps the others in their order. -/
theorem freeVars_bind {vars : List Param} {values : List Argument} (c : Condition)
    (hlen : vars.length = values.length) (hvalues : ∀ v ∈ values, v.isConst = true) :
    (c.bind vars values).freeVars = c.freeVars.filter fun p => p.name ∉ vars.map Param.name := by
  have hσ : ∀ e ∈ Subst.ofLists vars values, e.2.isConst = true :=
    fun e he => hvalues _ (List.of_mem_zip he).2
  have hkeys := keys_ofLists (Nat.le_of_eq hlen)
  have h := foldl_addFree_subst hσ (c.occurrences []) []
  rw [hkeys] at h
  rw [freeVars_eq_foldl, occurrences_bind, freeVars_eq_foldl, ← h]
  rfl

/-! ## Binding nothing, and binding twice -/

theorem NumExpr.subst_nil : ∀ v : NumExpr, v.subst [] = v
  | .const _ => rfl
  | .fluent f => by simp [NumExpr.subst, FluentApp.subst, funext Argument.subst_nil]
  | .op o l r => by rw [NumExpr.subst, NumExpr.subst_nil l, NumExpr.subst_nil r]

mutual

theorem subst_nil : ∀ c : Condition, c.subst [] = c
  | .lit l => by rw [subst, Literal.subst_nil]
  | .and cs => by rw [subst, substAll_nil cs]
  | .or cs => by rw [subst, substAll_nil cs]
  | .not c => by rw [subst, subst_nil c]
  | .quant q vs c => by
      have hnil : Subst.without [] (vs.map Param.name) = [] := rfl
      rw [subst, hnil, subst_nil c]
  | .when p c => by rw [subst, subst_nil p, subst_nil c]
  | .numEffect e => by
      simp [subst, NumericEffect.subst, FluentApp.subst, funext Argument.subst_nil,
        NumExpr.subst_nil]
  | .compare c => by simp [subst, Comparison.subst, NumExpr.subst_nil]

theorem substAll_nil : ∀ cs : List Condition, substAll [] cs = cs
  | [] => rfl
  | c :: cs => by rw [substAll, subst_nil c, substAll_nil cs]

end

section Twice

variable {ρ : Subst} (τ : Subst)

theorem NumExpr.subst_subst (hρ : ∀ e ∈ ρ, e.2.isConst = true) :
    ∀ v : NumExpr, (v.subst ρ).subst τ = v.subst (ρ ++ τ)
  | .const _ => rfl
  | .fluent f => by
      simp [NumExpr.subst, FluentApp.subst, Argument.subst_subst hρ τ]
  | .op o l r => by
      rw [NumExpr.subst, NumExpr.subst, NumExpr.subst_subst hρ l, NumExpr.subst_subst hρ r,
        NumExpr.subst]

mutual

/-- Substituting objects and then `τ` is substituting by both, the objects first: below a
quantification both substitutions lose the same names. -/
theorem subst_subst : ∀ {ρ : Subst} (τ : Subst), (∀ e ∈ ρ, e.2.isConst = true) →
    ∀ c : Condition, (c.subst ρ).subst τ = c.subst (ρ ++ τ)
  | ρ, τ, hρ, .lit l => by
      simp [subst, Literal.subst, Argument.subst_subst hρ τ]
  | _, τ, hρ, .and cs => by rw [subst, subst, substAll_substAll τ hρ cs, subst]
  | _, τ, hρ, .or cs => by rw [subst, subst, substAll_substAll τ hρ cs, subst]
  | _, τ, hρ, .not c => by rw [subst, subst, subst_subst τ hρ c, subst]
  | ρ, τ, hρ, .quant q vs c => by
      have hρ' : ∀ e ∈ ρ.without (vs.map Param.name), e.2.isConst = true :=
        fun e he => hρ e (mem_without.mp he).1
      have happ : (ρ ++ τ).without (vs.map Param.name) =
          ρ.without (vs.map Param.name) ++ τ.without (vs.map Param.name) := by
        simp [Subst.without, List.filter_append]
      rw [subst, subst, subst_subst _ hρ' c, subst, happ]
  | _, τ, hρ, .when p c => by
      rw [subst, subst, subst_subst τ hρ p, subst_subst τ hρ c, subst]
  | ρ, τ, hρ, .numEffect e => by
      simp [subst, NumericEffect.subst, FluentApp.subst, Argument.subst_subst hρ τ,
        NumExpr.subst_subst τ hρ]
  | ρ, τ, hρ, .compare c => by
      simp [subst, Comparison.subst, NumExpr.subst_subst τ hρ]

theorem substAll_substAll : ∀ {ρ : Subst} (τ : Subst), (∀ e ∈ ρ, e.2.isConst = true) →
    ∀ cs : List Condition, substAll τ (substAll ρ cs) = substAll (ρ ++ τ) cs
  | _, _, _, [] => rfl
  | _, τ, hρ, c :: cs => by
      rw [substAll, substAll, subst_subst τ hρ c, substAll_substAll τ hρ cs, substAll]

end

end Twice

/-- The substitution of two lists of variables, one after the other, is the substitution of the
first followed by that of the second, when the first has one value per variable. -/
theorem ofLists_append {v₁ v₂ : List Param} {x₁ x₂ : List Argument} (hlen : v₁.length = x₁.length) :
    Subst.ofLists (v₁ ++ v₂) (x₁ ++ x₂) = Subst.ofLists v₁ x₁ ++ Subst.ofLists v₂ x₂ := by
  simp only [Subst.ofLists, List.map_append]
  exact List.zip_append (by simpa using hlen)

/-- Substituting constants behaves like capture-free substitution: binding objects to `vars`
removes from the free variables exactly those with a name of `vars`, in the same order; at every
argument position, an argument that a quantification around it binds is left as it is and any
other takes its value under the binding; binding nothing changes nothing; and binding objects to
`v₁` and then values to `v₂` is binding `v₁ ++ v₂` at once. -/
theorem binding_objects_is_capture_free :
    (∀ (c : Condition) (vars : List Param) (values : List Argument),
      vars.length = values.length → (∀ v ∈ values, v.isConst = true) →
      (c.bind vars values).freeVars =
        c.freeVars.filter fun p => p.name ∉ vars.map Param.name) ∧
    (∀ (c : Condition) (vars : List Param) (values : List Argument),
      (c.bind vars values).occurrences [] =
        (c.occurrences []).map fun o =>
          (o.1, if o.2.BoundIn o.1 then o.2 else o.2.subst (Subst.ofLists vars values))) ∧
    (∀ c : Condition, c.bind [] [] = c) ∧
    (∀ (c : Condition) (v₁ v₂ : List Param) (x₁ x₂ : List Argument),
      v₁.length = x₁.length → (∀ x ∈ x₁, x.isConst = true) →
      (c.bind v₁ x₁).bind v₂ x₂ = c.bind (v₁ ++ v₂) (x₁ ++ x₂)) := by
  refine ⟨fun c _ _ hlen hvalues => freeVars_bind c hlen hvalues,
    fun c vars values => occurrences_bind vars values c,
    fun c => subst_nil c, fun c v₁ v₂ x₁ x₂ hlen hconst => ?_⟩
  have hρ : ∀ e ∈ Subst.ofLists v₁ x₁, e.2.isConst = true :=
    fun e he => hconst _ (List.of_mem_zip he).2
  rw [bind, bind, bind, subst_subst _ hρ, ofLists_append hlen]

/-- `(and (on ?x ?y) (exists (?x - block) (on ?x ?y)))`: the second `?x` is the quantified one. -/
def onUnderExists : Condition :=
  .and [.lit ⟨"on", [.var ⟨"x", "block"⟩, .var ⟨"y", "block"⟩], false⟩,
    .quant .any [⟨"x", "block"⟩] (.lit ⟨"on", [.var ⟨"x", "block"⟩, .var ⟨"y", "block"⟩], false⟩)]

/-- Binding `?x` to `a` leaves `?y` free, and binding `?y` to `b` afterwards is binding both. -/
theorem binding_x_then_y_is_binding_both :
    (onUnderExists.bind [⟨"x", "block"⟩] [.const ⟨"a", "block"⟩]).freeVars = [⟨"y", "block"⟩] ∧
    (onUnderExists.bind [⟨"x", "block"⟩] [.const ⟨"a", "block"⟩]).bind [⟨"y", "block"⟩]
        [.const ⟨"b", "block"⟩] =
      onUnderExists.bind [⟨"x", "block"⟩, ⟨"y", "block"⟩]
        [.const ⟨"a", "block"⟩, .const ⟨"b", "block"⟩] := by
  obtain ⟨hfree, -, -, htwice⟩ := binding_objects_is_capture_free
  refine ⟨?_, htwice onUnderExists _ _ _ _ rfl (by decide)⟩
  rw [hfree onUnderExists _ _ rfl (by decide)]
  decide

end Condition

end Pddl
