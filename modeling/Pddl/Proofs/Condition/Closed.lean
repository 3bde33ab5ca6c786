import Pddl.Condition.Dnf
import Pddl.Condition.Subst
import Pddl.Condition.Traverse
import Pddl.Problem.Builder
import Pddl.Proofs.Except
/-!
# Closed conditions

A condition is bound in a list of names when each of its variables is bound by an enclosing
quantification or has one of the names; it is closed when it is bound in no name. The variables
this misses are exactly the ones `freeVars` collects, so a condition that `checkBound` accepts is
bound in its parameters, and a condition is closed exactly when it has no free variable.

Binding every parameter of a bound condition to an object closes it, whatever the names repeat
or shadow: a quantification hides its own names from the substitution, and those names are the
ones it binds. Negation normal form and disjunctive normal form only rearrange the nodes of a
condition, so they keep it bound in the same names; neither substitution nor simplification
makes a condition deeper.
-/

namespace Pddl

namespace Argument

/-- The argument is an object, or a variable with one of the names. -/
def BoundIn (names : List String) : Argument → Prop
  | .const _ => True
  | .var p => p.name ∈ names

theorem BoundIn.mono {names names' : List String} (h : names ⊆ names') :
    ∀ {a : Argument}, a.BoundIn names → a.BoundIn names'
  | .const _, _ => trivial
  | .var _, ha => h ha

@[simp] theorem boundIn_nil {a : Argument} : a.BoundIn [] ↔ a.isConst = true := by
  cases a <;> simp [BoundIn, isConst]

end Argument

namespace Condition

mutual

/-- Every variable of the condition is bound by an enclosing quantification or has one of the
names. -/
def BoundIn (names : List String) : Condition → Prop
  | .lit l => ∀ a ∈ l.args, a.BoundIn names
  | .and cs => BoundInAll names cs
  | .or cs => BoundInAll names cs
  | .not c => BoundIn names c
  | .quant _ vs c => BoundIn (names ++ vs.map Param.name) c
  | .when p c => BoundIn names p ∧ BoundIn names c
  | .numEffect e => ∀ a ∈ e.target.args ++ e.value.arguments, a.BoundIn names
  | .compare c => ∀ a ∈ c.lhs.arguments ++ c.rhs.arguments, a.BoundIn names

/-- Every condition of the list is bound in the names. -/
def BoundInAll (names : List String) : List Condition → Prop
  | [] => True
  | c :: cs => BoundIn names c ∧ BoundInAll names cs

end

/-- The condition has no variable that an enclosing quantification does not bind. -/
abbrev Closed (c : Condition) : Prop := c.BoundIn []

@[simp] theorem boundInAll_iff {names : List String} :
    ∀ {cs : List Condition}, BoundInAll names cs ↔ ∀ c ∈ cs, c.BoundIn names
  | [] => by simp [BoundInAll]
  | c :: cs => by simp [BoundInAll, boundInAll_iff]

@[simp] theorem boundIn_and {names : List String} {cs : List Condition} :
    (Condition.and cs).BoundIn names ↔ ∀ c ∈ cs, c.BoundIn names := by
  simp [BoundIn]

@[simp] theorem boundIn_or {names : List String} {cs : List Condition} :
    (Condition.or cs).BoundIn names ↔ ∀ c ∈ cs, c.BoundIn names := by
  simp [BoundIn]

@[simp] theorem boundIn_tautology {names : List String} : tautology.BoundIn names := by
  simp [tautology]

@[simp] theorem boundIn_contradiction {names : List String} : contradiction.BoundIn names := by
  simp [contradiction]

/-- A literal is closed exactly when it is ground. -/
theorem closed_lit_iff {l : Literal} : (Condition.lit l).Closed ↔ l.isGround = true := by
  simp [Closed, BoundIn, Literal.isGround]

mutual

theorem BoundIn.mono {names names' : List String} (h : names ⊆ names') :
    ∀ (c : Condition), c.BoundIn names → c.BoundIn names'
  | .lit _, hc => fun a ha => (hc a ha).mono h
  | .and cs, hc => BoundInAll.mono h cs hc
  | .or cs, hc => BoundInAll.mono h cs hc
  | .not c, hc => BoundIn.mono h c hc
  | .quant _ _ c, hc =>
      BoundIn.mono (List.append_subset.mpr ⟨List.subset_append_of_subset_left _ h,
        List.subset_append_right _ _⟩) c hc
  | .when p c, hc => ⟨BoundIn.mono h p hc.1, BoundIn.mono h c hc.2⟩
  | .numEffect _, hc => fun a ha => (hc a ha).mono h
  | .compare _, hc => fun a ha => (hc a ha).mono h

theorem BoundInAll.mono {names names' : List String} (h : names ⊆ names') :
    ∀ (cs : List Condition), BoundInAll names cs → BoundInAll names' cs
  | [], _ => trivial
  | c :: cs, hc => ⟨BoundIn.mono h c hc.1, BoundInAll.mono h cs hc.2⟩

end

/-! ## Free variables -/

theorem subset_visitArgs (bound : List String) :
    ∀ (free : List Param) (args : List Argument), free ⊆ visitArgs bound free args
  | _, [] => List.Subset.refl _
  | free, .const _ :: rest => subset_visitArgs bound free rest
  | free, .var p :: rest => by
      simp only [visitArgs]
      split
      · exact subset_visitArgs bound free rest
      · exact List.Subset.trans (List.subset_append_left free [p]) (subset_visitArgs bound _ rest)

/-- Every argument is an object, has a bound name, or has the name of a variable that
`visitArgs` lists. -/
theorem boundIn_visitArgs (bound : List String) :
    ∀ (free : List Param) (args : List Argument),
      ∀ a ∈ args, a.BoundIn (bound ++ (visitArgs bound free args).map Param.name)
  | _, [] => by simp
  | free, .const _ :: rest => by
      intro a ha
      rcases List.mem_cons.mp ha with rfl | ha
      · trivial
      · exact boundIn_visitArgs bound free rest a ha
  | free, .var p :: rest => by
      intro a ha
      simp only [visitArgs]
      split
      · rename_i hseen
        rcases List.mem_cons.mp ha with rfl | ha
        · -- a variable that is skipped is bound, or has the name of one listed before
          simp only [Bool.or_eq_true, List.contains_iff_mem, List.any_eq_true, beq_iff_eq] at hseen
          rcases hseen with hb | ⟨q, hq, hqp⟩
          · exact List.mem_append_left _ hb
          · exact List.mem_append_right _
              (List.mem_map.mpr ⟨q, subset_visitArgs bound free rest hq, hqp⟩)
        · exact boundIn_visitArgs bound free rest a ha
      · rcases List.mem_cons.mp ha with rfl | ha
        · exact List.mem_append_right _
            (List.mem_map.mpr ⟨p, subset_visitArgs bound _ rest (by simp), rfl⟩)
        · exact boundIn_visitArgs bound _ rest a ha

theorem visitArgs_of_boundIn (bound : List String) :
    ∀ (free : List Param) (args : List Argument), (∀ a ∈ args, a.BoundIn bound) →
      visitArgs bound free args = free
  | _, [], _ => rfl
  | free, .const _ :: rest, h =>
      visitArgs_of_boundIn bound free rest fun a ha => h a (.tail _ ha)
  | free, .var p :: rest, h => by
      have hp : bound.contains p.name = true := by
        simpa [Argument.BoundIn] using h (.var p) (.head _)
      simp only [visitArgs, hp, Bool.true_or, ↓reduceIte]
      exact visitArgs_of_boundIn bound free rest fun a ha => h a (.tail _ ha)

private theorem names_subset {bound : List String} {free free' : List Param} (h : free ⊆ free') :
    bound ++ free.map Param.name ⊆ bound ++ free'.map Param.name :=
  List.append_subset.mpr ⟨List.subset_append_left _ _,
    List.subset_append_of_subset_right _ (List.map_subset _ h)⟩

mutual

theorem subset_collectFree (bound : List String) (free : List Param) :
    ∀ c : Condition, free ⊆ collectFree bound free c
  | .lit l => subset_visitArgs bound free l.args
  | .and cs => subset_collectFreeAll bound free cs
  | .or cs => subset_collectFreeAll bound free cs
  | .not c => subset_collectFree bound free c
  | .quant _ vs c => subset_collectFree (bound ++ vs.map Param.name) free c
  | .when p c => List.Subset.trans (subset_collectFree bound free p) (subset_collectFree bound _ c)
  | .numEffect _ => subset_visitArgs bound free _
  | .compare _ => subset_visitArgs bound free _

theorem subset_collectFreeAll (bound : List String) (free : List Param) :
    ∀ cs : List Condition, free ⊆ collectFreeAll bound free cs
  | [] => List.Subset.refl _
  | c :: cs => List.Subset.trans (subset_collectFree bound free c) (subset_collectFreeAll bound _ cs)

end

mutual

/-- Every variable of the condition is bound, or has the name of a variable that
`collectFree` lists. -/
theorem boundIn_collectFree (bound : List String) (free : List Param) :
    ∀ c : Condition, c.BoundIn (bound ++ (collectFree bound free c).map Param.name)
  | .lit l => boundIn_visitArgs bound free l.args
  | .and cs => boundInAll_collectFreeAll bound free cs
  | .or cs => boundInAll_collectFreeAll bound free cs
  | .not c => boundIn_collectFree bound free c
  | .quant _ vs c => by
      have hc := boundIn_collectFree (bound ++ vs.map Param.name) free c
      simp only [BoundIn, collectFree]
      -- the names the quantification binds move behind the collected ones
      refine BoundIn.mono ?_ c hc
      intro n hn
      simp only [List.mem_append] at hn ⊢
      rcases hn with (hn | hn) | hn <;> simp [hn]
  | .when p c =>
      ⟨BoundIn.mono (names_subset (subset_collectFree bound _ c)) p (boundIn_collectFree bound free p),
        boundIn_collectFree bound _ c⟩
  | .numEffect _ => boundIn_visitArgs bound free _
  | .compare _ => boundIn_visitArgs bound free _

theorem boundInAll_collectFreeAll (bound : List String) (free : List Param) :
    ∀ cs : List Condition, BoundInAll (bound ++ (collectFreeAll bound free cs).map Param.name) cs
  | [] => trivial
  | c :: cs =>
      ⟨BoundIn.mono (names_subset (subset_collectFreeAll bound _ cs)) c (boundIn_collectFree bound free c),
        boundInAll_collectFreeAll bound _ cs⟩

end

mutual

theorem collectFree_of_boundIn {bound : List String} (free : List Param) :
    ∀ c : Condition, c.BoundIn bound → collectFree bound free c = free
  | .lit l, h => visitArgs_of_boundIn bound free l.args h
  | .and cs, h => collectFreeAll_of_boundInAll free cs h
  | .or cs, h => collectFreeAll_of_boundInAll free cs h
  | .not c, h => collectFree_of_boundIn free c h
  | .quant _ _ c, h => collectFree_of_boundIn free c h
  | .when p c, h => by
      rw [collectFree, collectFree_of_boundIn free p h.1, collectFree_of_boundIn free c h.2]
  | .numEffect _, h => visitArgs_of_boundIn bound free _ h
  | .compare _, h => visitArgs_of_boundIn bound free _ h

theorem collectFreeAll_of_boundInAll {bound : List String} (free : List Param) :
    ∀ cs : List Condition, BoundInAll bound cs → collectFreeAll bound free cs = free
  | [], _ => rfl
  | c :: cs, h => by
      rw [collectFreeAll, collectFree_of_boundIn free c h.1]
      exact collectFreeAll_of_boundInAll free cs h.2

end

/-- A condition has no free variable exactly when it is closed. -/
theorem freeVars_eq_nil_iff {c : Condition} : c.freeVars = [] ↔ c.Closed := by
  constructor
  · intro h
    have hc := boundIn_collectFree [] [] c
    rwa [← freeVars, h] at hc
  · exact collectFree_of_boundIn [] c

theorem mem_visitArgs {M bound N : List String} (hM : ∀ n ∈ M, n ∈ bound ∨ n ∈ N) :
    ∀ (free : List Param) (args : List Argument), (∀ a ∈ args, a.BoundIn M) →
      ∀ v ∈ visitArgs bound free args, v ∈ free ∨ v.name ∈ N
  | _, [], _, _, hv => .inl hv
  | free, .const _ :: rest, h, v, hv =>
      mem_visitArgs hM free rest (fun a ha => h a (.tail _ ha)) v hv
  | free, .var p :: rest, h, v, hv => by
      have hrest : ∀ a ∈ rest, a.BoundIn M := fun a ha => h a (.tail _ ha)
      simp only [visitArgs] at hv
      split at hv
      · exact mem_visitArgs hM free rest hrest v hv
      · rename_i hnew
        rcases mem_visitArgs hM (free ++ [p]) rest hrest v hv with hv | hv
        · rcases List.mem_append.mp hv with hv | hv
          · exact .inl hv
          · -- a newly listed variable is not bound, so its name is among the others
            rw [List.mem_singleton] at hv
            subst hv
            rcases hM v.name (h (.var v) (.head _)) with hb | hN
            · simp only [Bool.or_eq_true, List.contains_iff_mem] at hnew
              exact absurd (.inl hb) hnew
            · exact .inr hN
        · exact .inr hv

mutual

/-- The variables that `collectFree` adds to `free` have names outside the bound ones: in a
condition bound in `M`, they are among the names of `M` that are not bound. -/
theorem mem_collectFree {N : List String} :
    ∀ {M bound : List String} {free : List Param} (c : Condition), c.BoundIn M →
      (∀ n ∈ M, n ∈ bound ∨ n ∈ N) → ∀ v ∈ collectFree bound free c, v ∈ free ∨ v.name ∈ N
  | _, _, free, .lit l, h, hM => mem_visitArgs hM free l.args h
  | _, _, _, .and cs, h, hM => mem_collectFreeAll cs h hM
  | _, _, _, .or cs, h, hM => mem_collectFreeAll cs h hM
  | _, _, _, .not c, h, hM => mem_collectFree c h hM
  | _, _, _, .quant _ vs c, h, hM => by
      refine mem_collectFree c h fun n hn => ?_
      rcases List.mem_append.mp hn with hn | hn
      · rcases hM n hn with hb | hN
        · exact .inl (List.mem_append_left _ hb)
        · exact .inr hN
      · exact .inl (List.mem_append_right _ hn)
  | _, _, _, .when p c, h, hM => fun v hv => by
      rcases mem_collectFree c h.2 hM v hv with hv | hv
      · exact mem_collectFree p h.1 hM v hv
      · exact .inr hv
  | _, _, free, .numEffect _, h, hM => mem_visitArgs hM free _ h
  | _, _, free, .compare _, h, hM => mem_visitArgs hM free _ h

theorem mem_collectFreeAll {N : List String} :
    ∀ {M bound : List String} {free : List Param} (cs : List Condition), BoundInAll M cs →
      (∀ n ∈ M, n ∈ bound ∨ n ∈ N) → ∀ v ∈ collectFreeAll bound free cs, v ∈ free ∨ v.name ∈ N
  | _, _, _, [], _, _, _, hv => .inl hv
  | _, _, _, c :: cs, h, hM, v, hv => by
      rcases mem_collectFreeAll cs h.2 hM v hv with hv | hv
      · exact mem_collectFree c h.1 hM v hv
      · exact .inr hv

end

/-- `checkBound` accepts a condition exactly when it is bound in the names of the parameters. -/
theorem checkBound_eq_ok_iff {ctx : String} {params : List Param} {c : Condition} :
    checkBound ctx params c = .ok () ↔ c.BoundIn (params.map Param.name) := by
  constructor
  · intro h
    have hnone : c.freeVars.find? (fun v => params.all (·.name != v.name)) = none := by
      unfold checkBound at h
      split at h
      · simp [throw, throwThe, MonadExceptOf.throw] at h
      · assumption
    -- every free variable has the name of a parameter
    have hnames : c.freeVars.map Param.name ⊆ params.map Param.name := by
      intro n hn
      obtain ⟨v, hv, rfl⟩ := List.mem_map.mp hn
      simpa using List.find?_eq_none.mp hnone v hv
    exact BoundIn.mono (List.append_subset.mpr ⟨List.nil_subset _, hnames⟩) c
      (boundIn_collectFree [] [] c)
  · intro h
    have hnames : ∀ v ∈ c.freeVars, v.name ∈ params.map Param.name := by
      intro v hv
      rcases mem_collectFree c h (fun n hn => .inr hn) v hv with hv | hv
      · cases hv
      · exact hv
    unfold checkBound
    rw [List.find?_eq_none.mpr fun v hv => by simpa using hnames v hv]
    rfl

end Condition

/-! ## Substitution -/

theorem NumExpr.arguments_subst (σ : Subst) :
    ∀ v : NumExpr, (v.subst σ).arguments = v.arguments.map (Argument.subst σ)
  | .const _ => rfl
  | .fluent _ => rfl
  | .op _ l r => by
      simp [NumExpr.subst, NumExpr.arguments, NumExpr.arguments_subst σ l,
        NumExpr.arguments_subst σ r]

theorem mem_without {σ : Subst} {names : List String} {e : String × Argument} :
    e ∈ σ.without names ↔ e ∈ σ ∧ e.1 ∉ names := by
  simp [Subst.without, List.mem_filter]

section Substitution

variable {σ : Subst} {names C : List String}

/-- Under a substitution by objects, an argument bound in `names` is bound in `C` when each of
the names is in `C` or has an entry. -/
theorem Argument.boundIn_subst (hσ : ∀ e ∈ σ, e.2.isConst = true)
    (hnames : ∀ n ∈ names, n ∈ C ∨ n ∈ σ.map Prod.fst) {a : Argument} (ha : a.BoundIn names) :
    (a.subst σ).BoundIn C := by
  cases a with
  | const o => trivial
  | var p =>
      simp only [Argument.subst]
      split
      · rename_i e hfind
        exact (Argument.boundIn_nil.mpr (hσ _ (List.mem_of_find?_eq_some hfind))).mono
          (List.nil_subset _)
      · rename_i hfind
        rcases hnames p.name ha with hC | hkey
        · exact hC
        · obtain ⟨e, he, hep⟩ := List.mem_map.mp hkey
          simpa [hep] using List.find?_eq_none.mp hfind e he

private theorem boundIn_map_subst (hσ : ∀ e ∈ σ, e.2.isConst = true)
    (hnames : ∀ n ∈ names, n ∈ C ∨ n ∈ σ.map Prod.fst) {args : List Argument}
    (h : ∀ a ∈ args, a.BoundIn names) : ∀ a ∈ args.map (Argument.subst σ), a.BoundIn C := by
  intro a ha
  obtain ⟨b, hb, rfl⟩ := List.mem_map.mp ha
  exact Argument.boundIn_subst hσ hnames (h b hb)

namespace Condition

mutual

/-- Under a substitution by objects, a condition bound in `names` is bound in `C` when each of
the names is in `C` or has an entry. Below a quantification both sides gain the names it
binds, and the substitution loses their entries. -/
theorem boundIn_subst :
    ∀ {σ : Subst} {names C : List String} (c : Condition), (∀ e ∈ σ, e.2.isConst = true) →
      (∀ n ∈ names, n ∈ C ∨ n ∈ σ.map Prod.fst) → c.BoundIn names → (c.subst σ).BoundIn C
  | _, _, _, .lit l, hσ, hn, h => boundIn_map_subst hσ hn h
  | _, _, _, .and cs, hσ, hn, h => boundInAll_substAll cs hσ hn h
  | _, _, _, .or cs, hσ, hn, h => boundInAll_substAll cs hσ hn h
  | _, _, _, .not c, hσ, hn, h => boundIn_subst c hσ hn h
  | σ, names, C, .quant _ vs c, hσ, hn, h => by
      have hσ' : ∀ e ∈ σ.without (vs.map Param.name), e.2.isConst = true :=
        fun e he => hσ e (mem_without.mp he).1
      -- a name the quantification binds is bound on both sides; another keeps its entry
      have hn' : ∀ n ∈ names ++ vs.map Param.name,
          n ∈ C ++ vs.map Param.name ∨ n ∈ (σ.without (vs.map Param.name)).map Prod.fst := by
        intro n hmem
        by_cases hv : n ∈ vs.map Param.name
        · exact .inl (List.mem_append_right _ hv)
        · rcases List.mem_append.mp hmem with hmem | hmem
          · rcases hn n hmem with hC | hkey
            · exact .inl (List.mem_append_left _ hC)
            · obtain ⟨e, he, rfl⟩ := List.mem_map.mp hkey
              exact .inr (List.mem_map.mpr ⟨e, mem_without.mpr ⟨he, hv⟩, rfl⟩)
          · exact absurd hmem hv
      exact boundIn_subst c hσ' hn' h
  | _, _, _, .when p c, hσ, hn, h => ⟨boundIn_subst p hσ hn h.1, boundIn_subst c hσ hn h.2⟩
  | σ, _, _, .numEffect e, hσ, hn, h => by
      have hargs := boundIn_map_subst hσ hn h
      simpa [subst, BoundIn, NumericEffect.subst, FluentApp.subst, NumExpr.arguments_subst]
        using hargs
  | σ, _, _, .compare c, hσ, hn, h => by
      have hargs := boundIn_map_subst hσ hn h
      simpa [subst, BoundIn, Comparison.subst, NumExpr.arguments_subst] using hargs

theorem boundInAll_substAll :
    ∀ {σ : Subst} {names C : List String} (cs : List Condition), (∀ e ∈ σ, e.2.isConst = true) →
      (∀ n ∈ names, n ∈ C ∨ n ∈ σ.map Prod.fst) → BoundInAll names cs →
        BoundInAll C (substAll σ cs)
  | _, _, _, [], _, _, _ => trivial
  | _, _, _, c :: cs, hσ, hn, h => ⟨boundIn_subst c hσ hn h.1, boundInAll_substAll cs hσ hn h.2⟩

end

/-- The entries of the substitution from the variables to the values are the names of the
variables, when there are enough values. -/
theorem keys_ofLists {vars : List Param} {values : List Argument} (hlen : vars.length ≤ values.length) :
    (Subst.ofLists vars values).map Prod.fst = vars.map Param.name :=
  List.map_fst_zip (by simpa using hlen)

/-- Binding the variables to objects closes a condition bound in them, whatever names repeat
among them or are rebound inside the condition. -/
theorem boundIn_bind {vars : List Param} {values : List Argument} {c : Condition}
    (h : c.BoundIn (C ++ vars.map Param.name)) (hlen : vars.length ≤ values.length)
    (hvalues : ∀ v ∈ values, v.isConst = true) : (c.bind vars values).BoundIn C := by
  refine boundIn_subst c (fun e he => hvalues _ (List.of_mem_zip he).2) ?_ h
  intro n hn
  rcases List.mem_append.mp hn with hn | hn
  · exact .inl hn
  · exact .inr (keys_ofLists hlen ▸ hn)

end Condition

/-- A substitution binds no variable without an entry. -/
theorem Argument.boundIn_of_boundIn_subst {a : Argument} (h : (a.subst σ).BoundIn C) :
    a.BoundIn (C ++ σ.map Prod.fst) := by
  cases a with
  | const o => trivial
  | var p =>
      simp only [Argument.subst] at h
      split at h
      · rename_i e hfind
        have hkey := List.find?_some hfind
        simp only [beq_iff_eq] at hkey
        exact List.mem_append_right _ (List.mem_map.mpr ⟨_, List.mem_of_find?_eq_some hfind, hkey⟩)
      · exact List.mem_append_left _ h

private theorem boundIn_of_boundIn_map_subst {args : List Argument}
    (h : ∀ a ∈ args.map (Argument.subst σ), a.BoundIn C) :
    ∀ a ∈ args, a.BoundIn (C ++ σ.map Prod.fst) :=
  fun _ ha => Argument.boundIn_of_boundIn_subst (h _ (List.mem_map_of_mem ha))

namespace Condition

mutual

/-- A substitution binds no variable without an entry: what is bound after it was bound before
or has an entry. -/
theorem boundIn_of_boundIn_subst :
    ∀ {σ : Subst} {C : List String} (c : Condition), (c.subst σ).BoundIn C →
      c.BoundIn (C ++ σ.map Prod.fst)
  | _, _, .lit _, h => boundIn_of_boundIn_map_subst h
  | _, _, .and cs, h => boundInAll_of_boundInAll_substAll cs h
  | _, _, .or cs, h => boundInAll_of_boundInAll_substAll cs h
  | _, _, .not c, h => boundIn_of_boundIn_subst c h
  | σ, C, .quant _ vs c, h => by
      have hc := boundIn_of_boundIn_subst c h
      simp only [BoundIn]
      -- the entries left below the quantification are entries of the whole substitution
      refine BoundIn.mono ?_ c hc
      intro n hn
      simp only [List.mem_append, List.mem_map, mem_without] at hn ⊢
      rcases hn with (hn | hn) | ⟨e, ⟨he, -⟩, rfl⟩
      · exact .inl (.inl hn)
      · exact .inr hn
      · exact .inl (.inr ⟨e, he, rfl⟩)
  | _, _, .when p c, h => ⟨boundIn_of_boundIn_subst p h.1, boundIn_of_boundIn_subst c h.2⟩
  | σ, C, .numEffect e, h => by
      have hargs : ∀ a ∈ (e.target.args ++ e.value.arguments).map (Argument.subst σ), a.BoundIn C := by
        simpa [subst, BoundIn, NumericEffect.subst, FluentApp.subst, NumExpr.arguments_subst] using h
      exact boundIn_of_boundIn_map_subst hargs
  | σ, C, .compare c, h => by
      have hargs : ∀ a ∈ (c.lhs.arguments ++ c.rhs.arguments).map (Argument.subst σ), a.BoundIn C := by
        simpa [subst, BoundIn, Comparison.subst, NumExpr.arguments_subst] using h
      exact boundIn_of_boundIn_map_subst hargs

theorem boundInAll_of_boundInAll_substAll :
    ∀ {σ : Subst} {C : List String} (cs : List Condition), BoundInAll C (substAll σ cs) →
      BoundInAll (C ++ σ.map Prod.fst) cs
  | _, _, [], _ => trivial
  | _, _, c :: cs, h => ⟨boundIn_of_boundIn_subst c h.1, boundInAll_of_boundInAll_substAll cs h.2⟩

end

end Condition

end Substitution

namespace Condition

/-! ## Depth -/

mutual

@[simp] theorem depth_subst : ∀ (σ : Subst) (c : Condition), (c.subst σ).depth = c.depth
  | _, .lit _ => rfl
  | σ, .and cs => by simp [subst, depth, depthAll_substAll σ cs]
  | σ, .or cs => by simp [subst, depth, depthAll_substAll σ cs]
  | σ, .not c => by simp [subst, depth, depth_subst σ c]
  | σ, .quant _ vs c => by simp [subst, depth, depth_subst (σ.without (vs.map Param.name)) c]
  | σ, .when p c => by simp [subst, depth, depth_subst σ p, depth_subst σ c]
  | _, .numEffect _ => rfl
  | _, .compare _ => rfl

@[simp] theorem depthAll_substAll : ∀ (σ : Subst) (cs : List Condition),
    depthAll (substAll σ cs) = depthAll cs
  | _, [] => rfl
  | σ, c :: cs => by simp [substAll, depthAll, depth_subst σ c, depthAll_substAll σ cs]

end

theorem depthAll_le_iff {d : Nat} : ∀ {cs : List Condition}, depthAll cs ≤ d ↔ ∀ c ∈ cs, c.depth ≤ d
  | [] => by simp [depthAll]
  | c :: cs => by simp [depthAll, depthAll_le_iff]

theorem depth_le_depthAll {c : Condition} {cs : List Condition} (h : c ∈ cs) :
    c.depth ≤ depthAll cs :=
  depthAll_le_iff.mp (Nat.le_refl _) c h

theorem eq_tautology_of_isTautology {c : Condition} (h : c.isTautology = true) : c = tautology := by
  unfold isTautology at h
  split at h
  · rfl
  · cases h

theorem eq_contradiction_of_isContradiction {c : Condition} (h : c.isContradiction = true) :
    c = contradiction := by
  unfold isContradiction at h
  split at h
  · rfl
  · cases h

end Condition

/-! ## Normal forms -/

namespace Junction

open Condition

theorem boundIn_build {k : Junction} {names : List String} {cs : List Condition} :
    (k.build cs).BoundIn names ↔ ∀ c ∈ cs, c.BoundIn names := by
  cases k <;> simp [build]

@[simp] theorem depth_build (k : Junction) (cs : List Condition) :
    (k.build cs).depth = depthAll cs + 1 := by
  cases k <;> rfl

theorem eq_build_of_members? {k : Junction} {e : Condition} {nested : List Condition}
    (h : k.members? e = some nested) : e = k.build nested := by
  cases k <;> cases e <;> simp_all [members?, build]

/-- Each element of a flattened set is one of the given elements, or a member of one of them
that is a set of the same kind. -/
theorem mem_flatten {k : Junction} :
    ∀ {es flat : List Condition}, k.flatten es = some flat →
      ∀ x ∈ flat, x ∈ es ∨ ∃ nested, k.build nested ∈ es ∧ x ∈ nested
  | [], flat, h => by
      simp only [flatten, Option.some.injEq] at h
      subst h
      simp
  | e :: es, flat, h => by
      simp only [flatten] at h
      -- the elements from the rest of the list keep their origin, one position further
      have hrest : ∀ rest, k.flatten es = some rest → ∀ x ∈ rest,
          x ∈ e :: es ∨ ∃ nested, k.build nested ∈ e :: es ∧ x ∈ nested := by
        intro rest hr x hx
        rcases mem_flatten hr x hx with hx | ⟨nested, hn, hx⟩
        · exact .inl (.tail _ hx)
        · exact .inr ⟨nested, .tail _ hn, hx⟩
      split at h
      · rename_i nested hn
        obtain ⟨rest, hr, rfl⟩ := Option.map_eq_some_iff.mp h
        intro x hx
        rcases List.mem_append.mp hx with hx | hx
        · exact .inr ⟨nested, eq_build_of_members? hn ▸ .head _, hx⟩
        · exact hrest rest hr x hx
      · split at h
        · cases h
        · obtain ⟨rest, hr, rfl⟩ := Option.map_eq_some_iff.mp h
          intro x hx
          rcases List.mem_cons.mp hx with rfl | hx
          · exact .inl (.head _)
          · exact hrest rest hr x hx

/-- Normalizing gives the constant of the dual kind, one of the flattened elements, or the set
of them. -/
theorem normalize_cases (k : Junction) (es : List Condition) :
    k.normalize es = k.dual.build [] ∨
      ∃ flat, k.flatten es = some flat ∧ (k.normalize es ∈ flat ∨ k.normalize es = k.build flat) := by
  unfold normalize
  split
  · exact .inl rfl
  · rename_i e h
    exact .inr ⟨[e], h, .inl (.head _)⟩
  · rename_i flat _ h
    exact .inr ⟨flat, h, .inr rfl⟩

/-- Normalizing keeps a property that a set has exactly when all its elements have it. -/
theorem normalize_of_forall {P : Condition → Prop}
    (hP : ∀ (k : Junction) (cs : List Condition), P (k.build cs) ↔ ∀ c ∈ cs, P c)
    {k : Junction} {es : List Condition} (h : ∀ e ∈ es, P e) : P (k.normalize es) := by
  have hflat : ∀ flat, k.flatten es = some flat → ∀ x ∈ flat, P x := by
    intro flat hf x hx
    rcases mem_flatten hf x hx with hx | ⟨nested, hn, hx⟩
    · exact h x hx
    · exact (hP k nested).mp (h _ hn) x hx
  rcases normalize_cases k es with hn | ⟨flat, hf, hn | hn⟩
  · rw [hn]
    exact (hP _ []).mpr (by simp)
  · exact hflat flat hf _ hn
  · rw [hn]
    exact (hP k flat).mpr (hflat flat hf)

theorem boundIn_normalize {k : Junction} {names : List String} {es : List Condition}
    (h : ∀ e ∈ es, e.BoundIn names) : (k.normalize es).BoundIn names :=
  normalize_of_forall (fun _ _ => boundIn_build) h

theorem depth_normalize_le {k : Junction} {es : List Condition} {d : Nat}
    (h : ∀ e ∈ es, e.depth ≤ d) : (k.normalize es).depth ≤ d + 1 := by
  -- a member of a nested set is shallower than the set
  have hflat : ∀ flat, k.flatten es = some flat → ∀ x ∈ flat, x.depth ≤ d := by
    intro flat hf x hx
    rcases mem_flatten hf x hx with hx | ⟨nested, hn, hx⟩
    · exact h x hx
    · have hle := h _ hn
      have hx' := depth_le_depthAll hx
      simp only [depth_build] at hle
      omega
  rcases normalize_cases k es with hn | ⟨flat, hf, hn | hn⟩
  · rw [hn]
    simp [depthAll]
  · exact Nat.le_succ_of_le (hflat flat hf _ hn)
  · rw [hn, depth_build]
    exact Nat.succ_le_succ (depthAll_le_iff.mpr (hflat flat hf))

end Junction

namespace Condition

/-- A simplified quantification is its simplified body, when it binds nothing or the body is a
constant that the quantifier (dual under negation) keeps, or a quantification of that body. -/
theorem simplify_quant (neg : Bool) (q : Quantifier) (vs : List Param) (c : Condition) :
    ((Condition.quant q vs c).simplify neg = c.simplify neg ∧
        (vs = [] ∨ (c.simplify neg = tautology ∧ (if neg then q.dual else q) = .all) ∨
          (c.simplify neg = contradiction ∧ (if neg then q.dual else q) = .any))) ∨
      (Condition.quant q vs c).simplify neg =
        .quant (if neg then q.dual else q) vs (c.simplify neg) := by
  simp only [simplify]
  generalize (if neg = true then q.dual else q) = q'
  split
  · rename_i hcond
    simp only [Bool.or_eq_true, List.isEmpty_iff, Bool.and_eq_true, beq_iff_eq] at hcond
    refine .inl ⟨rfl, ?_⟩
    rcases hcond with hv | ⟨ht, hq⟩
    · exact .inl hv
    · exact .inr (.inl ⟨eq_tautology_of_isTautology ht, hq⟩)
  · split
    · rename_i hcond
      simp only [Bool.and_eq_true, beq_iff_eq] at hcond
      exact .inl ⟨rfl, .inr (.inr ⟨eq_contradiction_of_isContradiction hcond.1, hcond.2⟩)⟩
    · exact .inr rfl

mutual

/-- Negation normal form keeps a condition bound in the same names. -/
theorem boundIn_simplify {names : List String} :
    ∀ (neg : Bool) (c : Condition), c.BoundIn names → (c.simplify neg).BoundIn names
  | neg, .lit l, h => by
      simp only [simplify]
      split
      · exact boundIn_tautology
      · exact boundIn_contradiction
      · cases neg <;> exact h
  | neg, .and cs, h =>
      Junction.boundIn_normalize (boundInAll_iff.mp (boundInAll_simplifyAll neg cs h))
  | neg, .or cs, h =>
      Junction.boundIn_normalize (boundInAll_iff.mp (boundInAll_simplifyAll neg cs h))
  | neg, .not c, h => boundIn_simplify (!neg) c h
  | neg, .quant q vs c, h => by
      have hin := boundIn_simplify neg c h
      rcases simplify_quant neg q vs c with ⟨heq, hv | ⟨ht, -⟩ | ⟨hf, -⟩⟩ | heq <;> rw [heq]
      · simpa [hv] using hin
      · exact ht ▸ boundIn_tautology
      · exact hf ▸ boundIn_contradiction
      · exact hin
  | _, .when p c, h => by
      have hp := boundIn_simplify false p h.1
      have hc := boundIn_simplify false c h.2
      simp only [simplify]
      split
      · exact boundIn_tautology
      · split
        · exact hc
        · exact ⟨hp, hc⟩
  | _, .numEffect _, h => h
  | neg, .compare _, h => by
      simp only [simplify]
      split
      · exact boundIn_tautology
      · exact boundIn_contradiction
      · cases neg <;> exact h

theorem boundInAll_simplifyAll {names : List String} :
    ∀ (neg : Bool) (cs : List Condition), BoundInAll names cs → BoundInAll names (simplifyAll neg cs)
  | _, [], _ => trivial
  | neg, c :: cs, h => ⟨boundIn_simplify neg c h.1, boundInAll_simplifyAll neg cs h.2⟩

end

mutual

/-- Negation normal form is no deeper than the condition. -/
theorem depth_simplify_le : ∀ (neg : Bool) (c : Condition), (c.simplify neg).depth ≤ c.depth
  | _, .lit _ => by
      simp only [simplify]
      split <;> simp [depth, depthAll, tautology, contradiction]
  | neg, .and cs => by
      simp only [simplify, depth]
      exact Junction.depth_normalize_le (depthAll_le_iff.mp (depthAll_simplifyAll_le neg cs))
  | neg, .or cs => by
      simp only [simplify, depth]
      exact Junction.depth_normalize_le (depthAll_le_iff.mp (depthAll_simplifyAll_le neg cs))
  | neg, .not c => by
      simp only [simplify, depth]
      exact Nat.le_succ_of_le (depth_simplify_le (!neg) c)
  | neg, .quant q vs c => by
      have hin := depth_simplify_le neg c
      rcases simplify_quant neg q vs c with ⟨heq, -⟩ | heq <;> rw [heq] <;> simp only [depth]
      · omega
      · omega
  | _, .when p c => by
      have hp := depth_simplify_le false p
      have hc := depth_simplify_le false c
      simp only [simplify]
      split
      · simp [depth, depthAll, tautology]
      · split <;> simp only [depth] <;> omega
  | _, .numEffect _ => Nat.le_refl _
  | _, .compare _ => by
      simp only [simplify]
      split <;> simp [depth, depthAll, tautology, contradiction]

theorem depthAll_simplifyAll_le : ∀ (neg : Bool) (cs : List Condition),
    depthAll (simplifyAll neg cs) ≤ depthAll cs
  | _, [] => Nat.le_refl _
  | neg, c :: cs => by
      have hc := depth_simplify_le neg c
      have hcs := depthAll_simplifyAll_le neg cs
      simp only [simplifyAll, depthAll]
      omega

end

theorem boundIn_of_mem_disjuncts {names : List String} {c d : Condition} (hc : c.BoundIn names)
    (hd : d ∈ c.disjuncts) : d.BoundIn names := by
  unfold disjuncts at hd
  split at hd
  · exact boundIn_or.mp hc d hd
  · rw [List.mem_singleton.mp hd]
    exact hc

end Condition

theorem Picks.exists_mem {α : Type} {t : List α} {ls : List (List α)} (h : Picks t ls) :
    ∀ x ∈ t, ∃ l ∈ ls, x ∈ l := by
  induction h with
  | nil => simp
  | cons hx _ ih =>
      intro y hy
      rcases List.mem_cons.mp hy with rfl | hy
      · exact ⟨_, .head _, hx⟩
      · obtain ⟨l, hl, hyl⟩ := ih y hy
        exact ⟨l, .tail _ hl, hyl⟩

theorem Picks.length_eq {α : Type} {t : List α} {ls : List (List α)} (h : Picks t ls) :
    t.length = ls.length := by
  induction h with
  | nil => rfl
  | cons _ _ ih => simp [ih]

namespace Condition

mutual

/-- Disjunctive normal form keeps a condition bound in the same names: every conjunct of a
disjunct comes from a disjunct of a member. -/
theorem boundIn_dnf {names : List String} : ∀ (c : Condition), c.BoundIn names → c.dnf.BoundIn names
  | .or cs, h => Junction.boundIn_normalize (boundInAll_iff.mp (boundInAll_dnfAll cs h))
  | .and cs, h => by
      have hds := boundInAll_iff.mp (boundInAll_dnfAll cs h)
      simp only [dnf]
      split
      · exact boundIn_tautology
      · apply Junction.boundIn_normalize
        intro e he
        obtain ⟨combo, hcombo, rfl⟩ := List.mem_map.mp he
        apply Junction.boundIn_normalize
        intro x hx
        obtain ⟨l, hl, hxl⟩ := ((mem_cartesian _ _).mp hcombo).exists_mem x hx
        obtain ⟨d, hd, rfl⟩ := List.mem_map.mp hl
        exact boundIn_of_mem_disjuncts (hds d hd) hxl
  | .not c, h => boundIn_dnf c h
  | .quant _ _ c, h => boundIn_dnf c h
  | .when p c, h => ⟨boundIn_dnf p h.1, boundIn_dnf c h.2⟩
  | .lit _, h => h
  | .numEffect _, h => h
  | .compare _, h => h

theorem boundInAll_dnfAll {names : List String} :
    ∀ (cs : List Condition), BoundInAll names cs → BoundInAll names (dnfAll cs)
  | [], _ => trivial
  | c :: cs, h => ⟨boundIn_dnf c h.1, boundInAll_dnfAll cs h.2⟩

end

end Condition

/-! ## Bindings -/

/-- The arguments are objects, one for each of the parameters. -/
def GroundArgs (params : List Param) (args : List Argument) : Prop :=
  args.length = params.length ∧ ∀ a ∈ args, a.isConst = true

/-- A binding of variables is a tuple of objects, one for each variable. -/
theorem groundArgs_of_mem_bindings {pb : Problem} {vars : List Param} {t : List Argument}
    (h : t ∈ pb.bindings vars) : GroundArgs vars t := by
  have hp := (mem_cartesian _ _).mp h
  refine ⟨by simpa [Problem.candidates] using hp.length_eq, ?_⟩
  intro a ha
  obtain ⟨l, hl, hal⟩ := hp.exists_mem a ha
  obtain ⟨v, -, rfl⟩ := List.mem_map.mp hl
  obtain ⟨o, -, rfl⟩ := List.mem_map.mp hal
  rfl

/-- An instance of a condition bound in `C` and the parameters is bound in `C`. -/
theorem Condition.boundIn_bind_of_groundArgs {vars : List Param} {t : List Argument}
    {C : List String} {c : Condition} (h : c.BoundIn (C ++ vars.map Param.name))
    (ht : GroundArgs vars t) : (c.bind vars t).BoundIn C :=
  boundIn_bind h (Nat.le_of_eq ht.1.symm) ht.2

/-- With an object for each parameter, binding leaves no free variable exactly when `checkBound`
accepts the condition: the two agree on which occurrences are bound. -/
theorem Condition.freeVars_bind_eq_nil_iff {ctx : String} {params : List Param}
    {args : List Argument} {c : Condition} (hargs : GroundArgs params args) :
    (c.bind params args).freeVars = [] ↔ checkBound ctx params c = .ok () := by
  rw [freeVars_eq_nil_iff, checkBound_eq_ok_iff]
  constructor
  · intro h
    have hc := boundIn_of_boundIn_subst c h
    rwa [keys_ofLists (Nat.le_of_eq hargs.1.symm), List.nil_append] at hc
  · intro h
    exact boundIn_bind_of_groundArgs h hargs

/-! ## Closed problems -/

/-- The conditions of the problem are bound in their parameters, its goals are closed and its
initial atoms are ground: what `check` and the builder ensure. -/
structure Problem.Closed (pb : Problem) : Prop where
  operators_bound : ∀ op ∈ pb.operators,
    op.pre.BoundIn (op.params.map Param.name) ∧ op.eff.BoundIn (op.params.map Param.name)
  axioms_bound : ∀ ax ∈ pb.axioms, ax.cond.BoundIn (ax.params.map Param.name)
  goals_closed : ∀ g ∈ pb.goals, g.Closed
  init_ground : ∀ l ∈ pb.init, l.isGround = true

/-- A problem that `check` accepts, with ground initial atoms, is closed. -/
theorem Problem.closed_of_check {pb : Problem} (h : pb.check = .ok ())
    (hinit : ∀ l ∈ pb.init, l.isGround = true) : pb.Closed := by
  unfold check at h
  simp only [except_bind_eq_ok] at h
  obtain ⟨⟨⟩, hops, ⟨⟩, haxs, hgoals⟩ := h
  refine ⟨fun op hop => ?_, fun ax hax => ?_, fun g hg => ?_, hinit⟩
  · have hop := forM_eq_ok.mp hops op hop
    simp only [except_bind_eq_ok] at hop
    obtain ⟨⟨⟩, hpre, heff⟩ := hop
    exact ⟨Condition.checkBound_eq_ok_iff.mp hpre, Condition.checkBound_eq_ok_iff.mp heff⟩
  · exact Condition.checkBound_eq_ok_iff.mp (forM_eq_ok.mp haxs ax hax)
  · exact Condition.checkBound_eq_ok_iff.mp (forM_eq_ok.mp hgoals g hg)

end Pddl
