import Pddl.Proofs.Ground.Join
import Pddl.Proofs.Ground.Layers
/-!
# Semi-naive rounds find each binding once

A round of the relaxed-planning-graph grounding joins the required literals of a condition with
the reached atoms, the `k`-th literal with the atoms of the last layer, those before it with
older atoms and those after it with any (`layerParts`); each partial binding the join finds is
then completed over the objects of the unbound parameters' types.

When every variable of the required literals is a parameter, a binding fixes the one atom each
literal matches (`LiteralMatches.unique`). The count of a binding among those a round passes on
is then one exactly when it is well-typed, the reached atoms support it and the older atoms do
not (`count_newBindings`): the join counts each atom once (`count_joinLiterals`), and only the
first literal whose atom is new takes the last layer.

Main statement: over a run whose layers add each atom once, a binding is passed on exactly once,
in the first round after the reached atoms support it (`semi_naive_rounds_find_each_binding_once`).
-/

namespace Pddl

/-! ## Lists -/

theorem count_eq_ite_of_nodup {α : Type} [BEq α] [LawfulBEq α] {l : List α} (h : l.Nodup) (a : α) :
    l.count a = if a ∈ l then 1 else 0 := by
  split
  · exact List.count_eq_one_of_mem h ‹_›
  · exact List.count_eq_zero_of_not_mem ‹_›

/-- Summing a function that is a constant on the members with a property at most one member has,
and zero elsewhere. -/
theorem sum_map_eq_ite_of_unique {α : Type} {l : List α} (hl : l.Nodup) (P : α → Prop)
    [DecidablePred P] (hP : ∀ a b, P a → P b → a = b) (n : Nat) {f : α → Nat}
    (hf : ∀ a ∈ l, f a = if P a then n else 0) :
    (l.map f).sum = if ∃ a ∈ l, P a then n else 0 := by
  induction l with
  | nil => simp
  | cons a l ih =>
      obtain ⟨hal, hl⟩ := List.nodup_cons.mp hl
      rw [List.map_cons, List.sum_cons, hf a (.head _), ih hl fun b hb => hf b (.tail _ hb)]
      by_cases ha : P a
      · -- no other member has the property
        have hrest : ¬ ∃ b ∈ l, P b := fun ⟨b, hb, hPb⟩ => hal (hP a b ha hPb ▸ hb)
        rw [if_pos ha, if_neg hrest, if_pos ⟨a, .head _, ha⟩, Nat.add_zero]
      · rw [if_neg ha, Nat.zero_add]
        simp [ha]

/-- The product of lists without repetition has no repeated tuple. -/
theorem nodup_cartesian {α : Type} : ∀ {ls : List (List α)}, (∀ l ∈ ls, l.Nodup) → (cartesian ls).Nodup
  | [], _ => by simp
  | c :: cs, h => by
      rw [cartesian_cons, List.nodup_flatMap]
      refine ⟨fun x _ => (nodup_cartesian fun l hl => h l (.tail _ hl)).map List.cons_injective, ?_⟩
      -- tuples with different first members differ
      refine (h c (.head _)).imp fun {x y} hxy => ?_
      rw [Function.onFun, List.disjoint_left]
      intro t htx hty
      obtain ⟨u, -, rfl⟩ := List.mem_map.mp htx
      obtain ⟨v, -, hv⟩ := List.mem_map.mp hty
      exact hxy (List.cons.inj hv).1.symm

/-! ## Partial bindings -/

/-- Every variable of the literal is a parameter. -/
def Literal.VarsIn (params : List Param) (l : Literal) : Prop :=
  ∀ x, Argument.var x ∈ l.args → ∃ i, params.findIdx? (·.name == x.name) = some i

/-- `b'` binds every parameter `b` binds, to the same object name. -/
def Refines (b b' : PartialBinding) : Prop :=
  b'.length = b.length ∧ ∀ i v, b.getD i none = some v → b'.getD i none = some v

theorem Refines.refl (b : PartialBinding) : Refines b b := ⟨rfl, fun _ _ h => h⟩

theorem Refines.trans {b b' b'' : PartialBinding} (h : Refines b b') (h' : Refines b' b'') :
    Refines b b'' :=
  ⟨h'.1.trans h.1, fun i v hv => h'.2 i v (h.2 i v hv)⟩

/-- Each parameter a partial binding binds names a declared object of a subtype of the
parameter's type. -/
def Typed (pb : Problem) (params : List Param) (b : PartialBinding) : Prop :=
  ∀ i n, b.getD i none = some n →
    ∃ o ∈ pb.objects, o.name = n ∧ pb.types.isSubtype o.type (params.getD i default).type = true

theorem typed_empty (pb : Problem) (params : List Param) :
    Typed pb params (params.map fun _ => none) := by
  intro i n h
  have hnone : (params.map fun _ => (none : Option String)).getD i none = none := by
    rw [List.getD_eq_getElem?_getD, List.getElem?_map]
    cases params[i]? <;> rfl
  rw [hnone] at h
  cases h

variable {os : List Object}

theorem agrees_iff_getD {b : PartialBinding} :
    Agrees os b ↔ os.length = b.length ∧
      ∀ i v, b.getD i none = some v → (os.getD i default).name = v := by
  constructor
  · intro h
    exact ⟨h.length_eq, fun i v hv => h.getD hv⟩
  · rintro ⟨hlen, hget⟩
    induction os generalizing b with
    | nil =>
        rw [List.eq_nil_of_length_eq_zero hlen.symm]
        exact .nil
    | cons o os ih =>
        cases b with
        | nil => cases hlen
        | cons x b =>
            refine .cons (fun v hv => hget 0 v (by simpa using hv)) (ih (Nat.succ.inj hlen) ?_)
            intro i v hv
            simpa using hget (i + 1) v (by simpa using hv)

/-- A binding that agrees with a refinement of `b` agrees with `b`. -/
theorem Agrees.of_refines {b b' : PartialBinding} (h : Agrees os b') (hr : Refines b b') :
    Agrees os b := by
  obtain ⟨hlen, hget⟩ := agrees_iff_getD.mp h
  exact agrees_iff_getD.mpr ⟨hlen.trans hr.1, fun i v hv => hget i v (hr.2 i v hv)⟩

theorem getD_set_of_ne {b : PartialBinding} {i j : Nat} (h : i ≠ j) (x : Option String) :
    (b.set i x).getD j none = b.getD j none := by
  simp [List.getD_eq_getElem?_getD, List.getElem?_set_ne h]

theorem getD_set_self {b : PartialBinding} {i : Nat} (h : i < b.length) (x : Option String) :
    (b.set i x).getD i none = x := by
  simp [List.getD_eq_getElem?_getD, h]

/-- Binding a parameter that was unbound refines the binding. -/
theorem refines_set {b : PartialBinding} {i : Nat} (h : b.getD i none = none) (v : String) :
    Refines b (b.set i (some v)) := by
  refine ⟨List.length_set, fun j w hw => ?_⟩
  have hij : i ≠ j := by
    rintro rfl
    rw [h] at hw
    cases hw
  rw [getD_set_of_ne hij, hw]

/-! ## Unification -/

section Unification

variable {pb : Problem} {params : List Param}

/-- The argument takes the value under the partial binding: a constant names it, and a
parameter is bound to it. -/
def ArgBound (params : List Param) (b : PartialBinding) : Argument → String → Prop
  | .const o, v => o.name = v
  | .var x, v => ∀ i, params.findIdx? (·.name == x.name) = some i → b.getD i none = some v

theorem ArgBound.refines {b b' : PartialBinding} (hr : Refines b b') :
    ∀ {arg : Argument} {v : String}, ArgBound params b arg v → ArgBound params b' arg v
  | .const _, _, h => h
  | .var _, _, h => fun i hi => hr.2 i _ (h i hi)

/-- An argument bound under a partial binding that agrees with `os` takes its value under `os`. -/
theorem ArgBound.argMatches {b : PartialBinding} (hb : Agrees os b) :
    ∀ {arg : Argument} {v : String}, ArgBound params b arg v → ArgMatches params os arg v
  | .const _, _, h => h
  | .var _, _, h => fun i hi => hb.getD (h i hi)

/-- A variable takes the value its parameter is bound to. -/
theorem argBound_var {b : PartialBinding} {x : Param} {i : Nat} {v : String}
    (hi : params.findIdx? (·.name == x.name) = some i) (hb : b.getD i none = some v) :
    ArgBound params b (.var x) v := by
  intro i' hi'
  obtain rfl : i = i' := Option.some.inj (hi.symm.trans hi')
  exact hb

/-- Binding an unbound parameter to a declared object of a subtype of its type keeps the partial
binding typed. -/
theorem Typed.set {b : PartialBinding} (htyped : Typed pb params b) {i : Nat} (hlt : i < b.length)
    {v : String} {o : Object} (hf : pb.findObject? v = some o)
    (hsub : pb.types.isSubtype o.type (params.getD i default).type = true) :
    Typed pb params (b.set i (some v)) := by
  intro j n hj
  by_cases hij : i = j
  · -- the parameter just bound names `o`
    subst hij
    rw [getD_set_self hlt] at hj
    obtain ⟨hmem, hname⟩ := Problem.findObject?_eq_some hf
    exact ⟨o, hmem, hname.trans (Option.some.inj hj), hsub⟩
  · rw [getD_set_of_ne hij] at hj
    exact htyped j n hj

/-- One step of unification refines the partial binding, binds the argument to the value, and
binds a parameter only to a declared object of a subtype of its type. -/
theorem unifyArg_spec {b b' : PartialBinding} (hlen : b.length = params.length)
    {arg : Argument} {v : String} (h : unifyArg pb params b (arg, v) = some b') :
    Refines b b' ∧ ArgBound params b' arg v ∧ (Typed pb params b → Typed pb params b') := by
  cases arg with
  | const o =>
      simp only [unifyArg] at h
      split at h
      · rename_i heq
        cases h
        exact ⟨.refl b, beq_iff_eq.mp heq, id⟩
      · cases h
  | var x =>
      simp only [unifyArg] at h
      cases hi : params.findIdx? (·.name == x.name) with
      | none =>
          rw [hi] at h
          cases h
          refine ⟨.refl b, ?_, id⟩
          intro i hi'
          rw [hi] at hi'
          cases hi'
      | some i =>
          rw [hi] at h
          simp only at h
          have hlt : i < b.length := hlen ▸ (List.findIdx?_eq_some_iff_getElem.mp hi).1
          cases hb : b.getD i none with
          | some bound =>
              rw [hb] at h
              simp only at h
              split at h
              · rename_i heq
                cases h
                exact ⟨.refl b, argBound_var hi (by rw [hb, beq_iff_eq.mp heq]), id⟩
              · cases h
          | none =>
              rw [hb] at h
              simp only at h
              cases hf : pb.findObject? v with
              | none =>
                  rw [hf] at h
                  cases h
              | some o =>
                  rw [hf] at h
                  simp only at h
                  split at h
                  · rename_i hsub
                    cases h
                    exact ⟨refines_set hb v, argBound_var hi (getD_set_self hlt _),
                      fun htyped => htyped.set hlt hf hsub⟩
                  · cases h

/-- Unifying arguments with values one after the other. -/
theorem foldlM_unifyArg_spec :
    ∀ {args : List Argument} {vals : List String} {b b' : PartialBinding},
      b.length = params.length → args.length = vals.length →
        (args.zip vals).foldlM (unifyArg pb params) b = some b' →
          Refines b b' ∧ List.Forall₂ (ArgBound params b') args vals ∧
            (Typed pb params b → Typed pb params b')
  | [], [], b, b', _, _, h => by
      cases h
      exact ⟨.refl b, .nil, id⟩
  | arg :: args, v :: vals, b, b', hlen, hargs, h => by
      rw [List.zip_cons_cons, List.foldlM_cons] at h
      cases h₁ : unifyArg pb params b (arg, v) with
      | none =>
          rw [h₁] at h
          cases h
      | some b₁ =>
          rw [h₁] at h
          obtain ⟨hr₁, hbound₁, htyped₁⟩ := unifyArg_spec hlen h₁
          obtain ⟨hr, hbound, htyped⟩ :=
            foldlM_unifyArg_spec (hr₁.1.trans hlen) (Nat.succ.inj hargs) h
          exact ⟨hr₁.trans hr, .cons (hbound₁.refines hr) hbound, htyped ∘ htyped₁⟩

/-- Unifying a literal with an atom refines the partial binding, binds every argument of the
literal to the atom's, and keeps the bound parameters declared and well-typed. -/
theorem unify_spec {l : Literal} {a : GroundAtom} {b b' : PartialBinding}
    (hlen : b.length = params.length) (h : unify pb params l a b = some b') :
    Refines b b' ∧ List.Forall₂ (ArgBound params b') l.args a.args ∧
      (Typed pb params b → Typed pb params b') := by
  unfold unify at h
  split at h
  · cases h
  · rename_i hne
    exact foldlM_unifyArg_spec hlen (by simpa using hne) h

/-- A literal unified with an atom of its predicate matches it under every binding that agrees
with the result. -/
theorem literalMatches_of_unify {l : Literal} {a : GroundAtom} {b b' : PartialBinding}
    (hlen : b.length = params.length) (hpred : a.pred = l.pred)
    (h : unify pb params l a b = some b') (hagree : Agrees os b') :
    LiteralMatches params os l a :=
  ⟨hpred.symm, (unify_spec hlen h).2.1.imp fun _ _ hb => hb.argMatches hagree⟩

/-- Arguments whose variables are all parameters take the values the binding fixes. -/
theorem values_unique_of_argMatches {args : List Argument} {vs vs' : List String}
    (hin : ∀ x, Argument.var x ∈ args → ∃ i, params.findIdx? (·.name == x.name) = some i)
    (hm : List.Forall₂ (ArgMatches params os) args vs)
    (hm' : List.Forall₂ (ArgMatches params os) args vs') : vs = vs' := by
  induction hm generalizing vs' with
  | nil => exact (List.forall₂_nil_left_iff.mp hm').symm
  | @cons arg v args vs harg _ ih =>
      cases hm' with
      | cons harg' hrest' =>
          rename_i v' vs'
          have hv : v = v' := by
            cases arg with
            | const o => exact harg.symm.trans harg'
            | var x =>
                obtain ⟨i, hi⟩ := hin x (.head _)
                exact (harg i hi).symm.trans (harg' i hi)
          rw [hv, ih (fun x hx => hin x (.tail _ hx)) hrest']

/-- When every variable of the literal is a parameter, a binding fixes the one atom the literal
matches. -/
theorem LiteralMatches.unique {l : Literal} (hvars : l.VarsIn params) {a a' : GroundAtom}
    (h : LiteralMatches params os l a) (h' : LiteralMatches params os l a') : a = a' := by
  obtain ⟨pred, args⟩ := a
  obtain ⟨pred', args'⟩ := a'
  obtain ⟨hp, hargs⟩ := h
  obtain ⟨hp', hargs'⟩ := h'
  simp only at hp hp' hargs hargs'
  subst hp hp'
  rw [values_unique_of_argMatches hvars hargs hargs']

end Unification

/-! ## Completing a partial binding -/

section Completion

variable {pb : Problem} {params : List Param} (hnd : (pb.objects.map (·.name)).Nodup)
include hnd

/-- The completions of a typed partial binding are exactly the well-typed bindings that agree
with it. -/
theorem mem_completeBindings_iff {b : PartialBinding} (hlen : b.length = params.length)
    (htyped : Typed pb params b) {args : List Argument} :
    args ∈ completeBindings pb params b ↔
      ∃ os, args = os.map .const ∧ Agrees os b ∧ WellTyped pb params os := by
  constructor
  · intro h
    unfold completeBindings at h
    rw [mem_cartesian] at h
    induction params generalizing b args with
    | nil =>
        obtain rfl := List.eq_nil_of_length_eq_zero hlen
        cases h
        exact ⟨[], rfl, .nil, .nil⟩
    | cons p ps ih =>
        cases b with
        | nil => cases hlen
        | cons v bs =>
            rw [List.zip_cons_cons, List.map_cons] at h
            cases h with
            | cons hx hxs =>
                rename_i x xs
                have htail : Typed pb ps bs := fun i n hi => htyped (i + 1) n hi
                obtain ⟨os', rfl, hagree, hwt⟩ := ih (Nat.succ.inj hlen) htail hxs
                -- the first argument is an object of the first parameter's type
                obtain ⟨o, rfl, hagree₀, hmem, hsub⟩ : ∃ o, x = .const o ∧
                    (∀ n, v = some n → o.name = n) ∧ o ∈ pb.objects ∧
                      pb.types.isSubtype o.type p.type = true := by
                  cases v with
                  | some n =>
                      obtain ⟨o, ho, rfl⟩ := List.mem_map.mp hx
                      obtain ⟨hmem, hname⟩ := Problem.findObject?_eq_some (Option.mem_toList.mp ho)
                      obtain ⟨o', hmem', hname', hsub'⟩ := htyped 0 n rfl
                      have ho' : o' = o := Option.some.inj
                        ((Problem.findObject?_of_mem hnd hmem').symm.trans (hname' ▸ Option.mem_toList.mp ho))
                      subst ho'
                      exact ⟨o', rfl, fun n' hn' => hname.trans (Option.some.inj hn'), hmem, hsub'⟩
                  | none =>
                      obtain ⟨o, ho, rfl⟩ := List.mem_map.mp hx
                      obtain ⟨hmem, hsub⟩ := List.mem_filter.mp ho
                      exact ⟨o, rfl, (fun _ h => nomatch h), hmem, hsub⟩
                exact ⟨o :: os', rfl, .cons hagree₀ hagree, .cons ⟨hmem, hsub⟩ hwt⟩
  · rintro ⟨os, rfl, hagree, hwt⟩
    exact completeBindings_of_agrees hwt hnd hagree

/-- Completions are listed once each. -/
theorem nodup_completeBindings (b : PartialBinding) : (completeBindings pb params b).Nodup := by
  have hobjects : pb.objects.Nodup := List.Nodup.of_map _ hnd
  have hconst : Function.Injective Argument.const := fun _ _ h => Argument.const.inj h
  refine nodup_cartesian fun l hl => ?_
  obtain ⟨⟨p, v⟩, -, rfl⟩ := List.mem_map.mp hl
  cases v with
  | some n =>
      dsimp only
      cases pb.findObject? n with
      | none => exact List.nodup_nil
      | some o => exact List.nodup_singleton _
  | none => exact (hobjects.filter _).map hconst

open Classical in
/-- A binding is among the completions of a typed partial binding once when it is well-typed and
agrees with it, and otherwise not at all. -/
theorem count_completeBindings {b : PartialBinding} (hlen : b.length = params.length)
    (htyped : Typed pb params b) (os : List Object) :
    (completeBindings pb params b).count (os.map .const) =
      if Agrees os b ∧ WellTyped pb params os then 1 else 0 := by
  have hinj : Function.Injective (List.map Argument.const) :=
    List.map_injective_iff.mpr fun _ _ h => Argument.const.inj h
  have hmem : os.map .const ∈ completeBindings pb params b ↔ Agrees os b ∧ WellTyped pb params os := by
    rw [mem_completeBindings_iff hnd hlen htyped]
    constructor
    · rintro ⟨os', hos, hagree, hwt⟩
      rw [hinj hos]
      exact ⟨hagree, hwt⟩
    · rintro ⟨hagree, hwt⟩
      exact ⟨os, rfl, hagree, hwt⟩
  rw [count_eq_ite_of_nodup (nodup_completeBindings hnd b)]
  by_cases h : Agrees os b ∧ WellTyped pb params os
  · rw [if_pos (hmem.mpr h), if_pos h]
  · rw [if_neg (mt hmem.mp h), if_neg h]

end Completion

/-! ## Joins -/

/-- The reached atoms a part joins with: those reached before the last layer, those of the last
layer, or all of them. -/
def LayerPart.atoms (as : List GroundAtom) (k : Nat) : LayerPart → List GroundAtom
  | .old => as.take k
  | .new => as.drop k
  | .all => as

theorem LayerPart.atoms_sublist (as : List GroundAtom) (k : Nat) :
    ∀ q : LayerPart, (q.atoms as k).Sublist as
  | .old => List.take_sublist _ _
  | .new => List.drop_sublist _ _
  | .all => List.Sublist.refl _

namespace Reached

variable {r : Reached} {as : List GroundAtom} {k : Nat}

theorem Records.part_eq (h : r.Records as k) (p : String) :
    ∀ q : LayerPart, r.part p q = (q.atoms as k).filter (·.pred == p)
  | .old => h.part_old p
  | .new => h.part_new p
  | .all => h.part_all p

theorem Records.mem_part_iff (h : r.Records as k) {p : String} {q : LayerPart} {a : GroundAtom} :
    a ∈ r.part p q ↔ a ∈ q.atoms as k ∧ a.pred = p := by
  rw [h.part_eq, List.mem_filter, beq_iff_eq]

theorem Records.nodup_part (h : r.Records as k) (hnd : as.Nodup) (p : String) (q : LayerPart) :
    (r.part p q).Nodup := by
  rw [h.part_eq]
  exact (hnd.sublist (LayerPart.atoms_sublist as k q)).filter _

end Reached

section Join

variable {pb : Problem} {params : List Param} {r : Reached} {as : List GroundAtom} {k : Nat}
  (hrec : r.Records as k) (hnd_as : as.Nodup) (hnd : (pb.objects.map (·.name)).Nodup)
include hrec hnd_as hnd

open Classical in
/-- A binding is among the completions of the join once when it is well-typed, agrees with the
start, and each literal matches an atom of its part; otherwise not at all. Each atom of a part is
met once, and a binding fixes the one atom each literal can match. -/
theorem count_joinLiterals (os : List Object) :
    ∀ (parts : List (Literal × LayerPart)) (b : PartialBinding), b.length = params.length →
      Typed pb params b → (∀ x ∈ parts, x.1.VarsIn params) →
        ((joinLiterals pb params r parts b).flatMap (completeBindings pb params)).count
            (os.map .const) =
          if Agrees os b ∧ WellTyped pb params os ∧
              ∀ x ∈ parts, ∃ a ∈ r.part x.1.pred x.2, LiteralMatches params os x.1 a then 1 else 0
  | [], b, hlen, htyped, _ => by
      simp [joinLiterals, count_completeBindings hnd hlen htyped os]
  | (l, q) :: rest, b, hlen, htyped, hvars => by
      rw [joinLiterals, List.flatMap_assoc, List.count_flatMap,
        sum_map_eq_ite_of_unique (hrec.nodup_part hnd_as _ _) (LiteralMatches params os l)
          (fun _ _ => LiteralMatches.unique (hvars (l, q) (.head _)))
          (if Agrees os b ∧ WellTyped pb params os ∧
              ∀ x ∈ rest, ∃ a ∈ r.part x.1.pred x.2, LiteralMatches params os x.1 a then 1 else 0)]
      · by_cases hex : ∃ a ∈ r.part l.pred q, LiteralMatches params os l a
        · simp [hex]
        · simp [hex]
      -- the count the rest of the join gives from each atom of the literal's part
      intro a ha
      have hpred : a.pred = l.pred := (hrec.mem_part_iff.mp ha).2
      simp only [Function.comp_apply]
      cases hu : unify pb params l a b with
      | none =>
          -- a literal that matches under an agreeing binding unifies
          simp only [List.flatMap_nil, List.count_nil]
          by_cases hm : LiteralMatches params os l a
          · rw [if_pos hm, if_neg]
            rintro ⟨hagree, hwt, -⟩
            obtain ⟨b', hb', -⟩ := unify_of_matches hwt hnd hagree hm
            rw [hu] at hb'
            cases hb'
          · rw [if_neg hm]
      | some b' =>
          obtain ⟨hr, -, htyped'⟩ := unify_spec hlen hu
          simp only
          rw [count_joinLiterals os rest b' (hr.1.trans hlen) (htyped' htyped)
            fun x hx => hvars x (.tail _ hx)]
          by_cases hagree' : Agrees os b'
          · have hm := literalMatches_of_unify hlen hpred hu hagree'
            simp [hm, hagree', hagree'.of_refines hr]
          · rw [if_neg fun h => hagree' h.1]
            by_cases hm : LiteralMatches params os l a
            · rw [if_pos hm, if_neg]
              rintro ⟨hagree, hwt, -⟩
              obtain ⟨b'', hb'', hagree''⟩ := unify_of_matches hwt hnd hagree hm
              rw [hu] at hb''
              cases hb''
              exact hagree' hagree''
            · rw [if_neg hm]

end Join

/-! ## A round -/

/-- The atoms `S` support the binding: each required literal of the condition matches one of
them. -/
def Supported (params : List Param) (os : List Object) (c : Condition) (S : List GroundAtom) :
    Prop :=
  ∀ l ∈ requiredLiterals c, ∃ a ∈ S, LiteralMatches params os l a

section Support

variable {params : List Param} {os : List Object} {c : Condition}

theorem Supported.mono {S S' : List GroundAtom} (h : Supported params os c S) (hS : S ⊆ S') :
    Supported params os c S' := fun l hl =>
  let ⟨a, ha, hm⟩ := h l hl
  ⟨a, hS ha, hm⟩

/-- No atom supports a binding of a condition with a required literal. -/
theorem supported_nil_iff : Supported params os c [] ↔ requiredLiterals c = [] := by
  constructor
  · intro h
    refine List.eq_nil_iff_forall_not_mem.mpr fun l hl => ?_
    obtain ⟨a, ha, -⟩ := h l hl
    cases ha
  · intro h l hl
    rw [h] at hl
    cases hl

theorem Supported.of_nil (h : requiredLiterals c = []) (S : List GroundAtom) :
    Supported params os c S :=
  (supported_nil_iff.mpr h).mono (List.nil_subset S)

end Support

section Round

variable {pb : Problem} {params : List Param} {os : List Object} {r : Reached}
  {as : List GroundAtom} {k : Nat}

/-- The literal matches one of the atoms a part joins it with. -/
theorem exists_part_iff (hrec : r.Records as k) {l : Literal} {q : LayerPart} :
    (∃ a ∈ r.part l.pred q, LiteralMatches params os l a) ↔
      ∃ a ∈ q.atoms as k, LiteralMatches params os l a := by
  constructor
  · rintro ⟨a, ha, hm⟩
    exact ⟨a, (hrec.mem_part_iff.mp ha).1, hm⟩
  · rintro ⟨a, ha, hm⟩
    exact ⟨a, hrec.mem_part_iff.mpr ⟨ha, hm.1.symm⟩, hm⟩

/-- The atom a literal matches is never both older and of the last layer. -/
theorem not_matches_old_and_new (hnd_as : as.Nodup) {l : Literal} (hvars : l.VarsIn params)
    (hold : ∃ a ∈ as.take k, LiteralMatches params os l a)
    (hnew : ∃ a ∈ as.drop k, LiteralMatches params os l a) : False := by
  obtain ⟨a, ha, hm⟩ := hold
  obtain ⟨a', ha', hm'⟩ := hnew
  rw [← List.take_append_drop k as, List.nodup_append] at hnd_as
  exact hnd_as.2.2 a ha a' ha' (LiteralMatches.unique hvars hm hm')

/-- An atom reached is older or of the last layer. -/
theorem matches_old_or_new {l : Literal} (h : ∃ a ∈ as, LiteralMatches params os l a) :
    (∃ a ∈ as.take k, LiteralMatches params os l a) ∨
      ∃ a ∈ as.drop k, LiteralMatches params os l a := by
  obtain ⟨a, ha, hm⟩ := h
  rw [← List.take_append_drop k as, List.mem_append] at ha
  exact ha.elim (fun h => .inl ⟨a, h, hm⟩) (fun h => .inr ⟨a, h, hm⟩)

/-- The join at position `k'` finds a binding when each literal before it matches an older atom,
the literal at it an atom of the last layer, and each literal after it a reached atom. -/
def JoinsAt (params : List Param) (os : List Object) (lits : List Literal) (as : List GroundAtom)
    (k k' : Nat) : Prop :=
  ∀ j (h : j < lits.length), ∃ a ∈ (if j < k' then LayerPart.old else if j = k' then .new else .all).atoms as k,
    LiteralMatches params os lits[j] a

theorem joinsAt_iff (hrec : r.Records as k) {lits : List Literal} {k' : Nat} :
    (∀ x ∈ layerParts lits k', ∃ a ∈ r.part x.1.pred x.2, LiteralMatches params os x.1 a) ↔
      JoinsAt params os lits as k k' := by
  constructor
  · intro h j hj
    exact (exists_part_iff hrec).mp (h _ (mem_layerParts.mpr ⟨j, hj, rfl⟩))
  · intro h x hx
    obtain ⟨j, hj, rfl⟩ := mem_layerParts.mp hx
    exact (exists_part_iff hrec).mpr (h j hj)

variable (hnd_as : as.Nodup) {lits : List Literal} (hvars : ∀ l ∈ lits, l.VarsIn params)
include hnd_as hvars

/-- At most one position joins a binding: the first literal whose atom is of the last layer. -/
theorem JoinsAt.unique {k₁ k₂ : Nat} (h₁ : k₁ < lits.length ∧ JoinsAt params os lits as k k₁)
    (h₂ : k₂ < lits.length ∧ JoinsAt params os lits as k k₂) : k₁ = k₂ := by
  -- the literal at the smaller position would match both an older atom and a new one
  have hne : ∀ {k₁ k₂}, k₁ < lits.length → JoinsAt params os lits as k k₁ →
      JoinsAt params os lits as k k₂ → ¬ k₁ < k₂ := by
    intro k₁ k₂ hk₁ h₁ h₂ hlt
    have hold := h₂ k₁ hk₁
    have hnew := h₁ k₁ hk₁
    rw [if_pos hlt] at hold
    rw [if_neg (Nat.lt_irrefl _), if_pos rfl] at hnew
    exact not_matches_old_and_new hnd_as (hvars _ (List.getElem_mem hk₁)) hold hnew
  have := hne h₁.1 h₁.2 h₂.2
  have := hne h₂.1 h₂.2 h₁.2
  omega

/-- Some position joins a binding exactly when the reached atoms support it and the older atoms
do not. -/
theorem exists_joinsAt_iff :
    (∃ k' ∈ List.range lits.length, k' < lits.length ∧ JoinsAt params os lits as k k') ↔
      (∀ l ∈ lits, ∃ a ∈ as, LiteralMatches params os l a) ∧
        ¬ ∀ l ∈ lits, ∃ a ∈ as.take k, LiteralMatches params os l a := by
  constructor
  · rintro ⟨k', -, hk', hjoin⟩
    refine ⟨fun l hl => ?_, fun hold => ?_⟩
    · obtain ⟨j, hj, rfl⟩ := List.getElem_of_mem hl
      obtain ⟨a, ha, hm⟩ := hjoin j hj
      exact ⟨a, LayerPart.atoms_sublist as k _ |>.subset ha, hm⟩
    · have hnew := hjoin k' hk'
      rw [if_neg (Nat.lt_irrefl _), if_pos rfl] at hnew
      exact not_matches_old_and_new hnd_as (hvars _ (List.getElem_mem hk'))
        (hold _ (List.getElem_mem hk')) hnew
  · rintro ⟨hall, hnotold⟩
    classical
    -- the first literal the older atoms leave unmatched takes the last layer
    have hex : ∃ j, ∃ h : j < lits.length, ¬ ∃ a ∈ as.take k, LiteralMatches params os lits[j] a := by
      refine Classical.byContradiction fun hno => hnotold fun l hl => ?_
      obtain ⟨j, hj, rfl⟩ := List.getElem_of_mem hl
      exact Classical.byContradiction fun hl' => hno ⟨j, hj, hl'⟩
    obtain ⟨hk, hunmatched⟩ := Nat.find_spec hex
    refine ⟨Nat.find hex, List.mem_range.mpr hk, hk, fun j hj => ?_⟩
    by_cases hjk : j < Nat.find hex
    · rw [if_pos hjk]
      exact Classical.byContradiction fun hno => Nat.find_min hex hjk ⟨hj, hno⟩
    · rw [if_neg hjk]
      by_cases hjk' : j = Nat.find hex
      · subst hjk'
        rw [if_pos rfl]
        exact (matches_old_or_new (hall _ (List.getElem_mem hj))).resolve_left hunmatched
      · rw [if_neg hjk']
        exact hall _ (List.getElem_mem hj)

end Round

/-- The partial bindings a join ends with are as long as the parameter list and typed. -/
theorem typed_of_mem_joinLiterals {pb : Problem} {params : List Param} {r : Reached} :
    ∀ {parts : List (Literal × LayerPart)} {b b' : PartialBinding},
      b.length = params.length → Typed pb params b → b' ∈ joinLiterals pb params r parts b →
        b'.length = params.length ∧ Typed pb params b'
  | [], _, _, hlen, htyped, h => by
      rw [joinLiterals, List.mem_singleton] at h
      exact h ▸ ⟨hlen, htyped⟩
  | (l, q) :: rest, b, b', hlen, htyped, h => by
      rw [joinLiterals, List.mem_flatMap] at h
      obtain ⟨a, -, h⟩ := h
      -- the atom unifies, and the rest of the join starts from the refined binding
      cases hu : unify pb params l a b with
      | none => simp [hu] at h
      | some b₁ =>
          rw [hu] at h
          obtain ⟨hr, -, htyped₁⟩ := unify_spec hlen hu
          exact typed_of_mem_joinLiterals (hr.1.trans hlen) (htyped₁ htyped) h

/-- A round only passes bindings of objects. -/
theorem exists_objects_of_mem_newBindings {pb : Problem} {params : List Param} {c : Condition}
    {r : Reached} {first : Bool} (hnd : (pb.objects.map (·.name)).Nodup) {args : List Argument}
    (h : args ∈ newBindings pb params c r first) : ∃ os : List Object, args = os.map .const := by
  have hlen : (params.map fun _ => (none : Option String)).length = params.length :=
    List.length_map _
  have hcomplete : ∀ {b : PartialBinding}, b.length = params.length → Typed pb params b →
      args ∈ completeBindings pb params b → ∃ os : List Object, args = os.map .const :=
    fun hlen htyped h =>
      let ⟨os, hos, _⟩ := (mem_completeBindings_iff hnd hlen htyped).mp h
      ⟨os, hos⟩
  unfold newBindings at h
  simp only at h
  split at h
  · split at h
    · exact hcomplete hlen (typed_empty pb params) h
    · cases h
  · obtain ⟨k', -, h⟩ := List.mem_flatMap.mp h
    obtain ⟨b, hb, h⟩ := List.mem_flatMap.mp h
    obtain ⟨hblen, htyped⟩ := typed_of_mem_joinLiterals hlen (typed_empty pb params) hb
    exact hcomplete hblen htyped h

section Count

variable {pb : Problem} {params : List Param} {r : Reached} {as : List GroundAtom} {k : Nat}
  {c : Condition} (hrec : r.Records as k) (hnd_as : as.Nodup)
  (hnd : (pb.objects.map (·.name)).Nodup) (hvars : ∀ l ∈ requiredLiterals c, l.VarsIn params)
include hrec hnd_as hnd hvars

open Classical in
/-- A round finds a binding once when it is well-typed and supported by the reached atoms but not
by those reached before the last layer, and otherwise not at all; a condition without required
literal has each well-typed binding found once by the first round. -/
theorem count_newBindings (first : Bool) (os : List Object) :
    (newBindings pb params c r first).count (os.map .const) =
      if WellTyped pb params os ∧ Supported params os c as ∧
          (requiredLiterals c = [] ∧ first = true ∨
            requiredLiterals c ≠ [] ∧ ¬ Supported params os c (as.take k))
        then 1 else 0 := by
  have hlen : (params.map fun _ => (none : Option String)).length = params.length :=
    List.length_map _
  have hagree : WellTyped pb params os → Agrees os (params.map fun _ => none) := fun hwt =>
    agrees_none hwt.length_eq.symm
  unfold newBindings
  simp only
  split
  · rename_i hemp
    have hnil : requiredLiterals c = [] := List.isEmpty_iff.mp hemp
    have hsupp : Supported params os c as := fun l hl => absurd hl (hnil ▸ List.not_mem_nil)
    cases first with
    | false => simp [hnil]
    | true =>
        rw [if_pos rfl, count_completeBindings hnd hlen (typed_empty pb params) os]
        by_cases hwt : WellTyped pb params os
        · rw [if_pos ⟨hagree hwt, hwt⟩, if_pos ⟨hwt, hsupp, .inl ⟨hnil, rfl⟩⟩]
        · rw [if_neg fun h => hwt h.2, if_neg fun h => hwt h.1]
  · rename_i hemp
    have hne : requiredLiterals c ≠ [] := fun h => hemp (List.isEmpty_iff.mpr h)
    -- the positions are summed; a binding is counted at the one position that joins it
    rw [List.count_flatMap, sum_map_eq_ite_of_unique List.nodup_range
      (fun k' => k' < (requiredLiterals c).length ∧ JoinsAt params os (requiredLiterals c) as k k')
      (fun _ _ => JoinsAt.unique hnd_as hvars) (if WellTyped pb params os then 1 else 0)]
    · by_cases hj : ∃ k' ∈ List.range (requiredLiterals c).length,
          k' < (requiredLiterals c).length ∧ JoinsAt params os (requiredLiterals c) as k k'
      · obtain ⟨hall, hold⟩ := (exists_joinsAt_iff hnd_as hvars).mp hj
        rw [if_pos hj]
        by_cases hwt : WellTyped pb params os
        · rw [if_pos hwt, if_pos ⟨hwt, hall, .inr ⟨hne, hold⟩⟩]
        · rw [if_neg hwt, if_neg fun h => hwt h.1]
      · rw [if_neg hj, if_neg]
        rintro ⟨-, hall, hfresh⟩
        exact hj ((exists_joinsAt_iff hnd_as hvars).mpr
          ⟨hall, (hfresh.resolve_left fun h => hne h.1).2⟩)
    intro k' hk'
    have hpvars : ∀ x ∈ layerParts (requiredLiterals c) k', x.1.VarsIn params := by
      intro x hx
      obtain ⟨j, hj, rfl⟩ := mem_layerParts.mp hx
      exact hvars _ (List.getElem_mem hj)
    simp only [Function.comp_apply]
    rw [count_joinLiterals hrec hnd_as hnd os _ _ hlen (typed_empty pb params) hpvars]
    by_cases hwt : WellTyped pb params os
    · by_cases hj : JoinsAt params os (requiredLiterals c) as k k'
      · rw [if_pos ⟨hagree hwt, hwt, (joinsAt_iff hrec).mpr hj⟩,
          if_pos ⟨List.mem_range.mp hk', hj⟩, if_pos hwt]
      · rw [if_neg fun h => hj ((joinsAt_iff hrec).mp h.2.2), if_neg fun h => hj h.2]
    · rw [if_neg fun h => hwt h.2.1, if_neg hwt, ite_self]

end Count

/-! ## A run -/

namespace Reached

theorem Records.foldl_add {r : Reached} {as : List GroundAtom} {k : Nat} (h : r.Records as k)
    (hk : k ≤ as.length) (layer : List GroundAtom) :
    (layer.foldl Reached.add r).Records (as ++ layer) k := by
  induction layer generalizing r as with
  | nil => simpa using h
  | cons a rest ih =>
      have h' := ih (h.add hk a) (by rw [List.length_append]; omega)
      rwa [List.append_assoc, List.singleton_append] at h'

/-- The reached atoms after the layers were reached one after another, the atoms reached before a
layer marked old when it starts. -/
def afterLayers (layers : List (List GroundAtom)) : Reached :=
  layers.foldl (fun r layer => layer.foldl add r.nextLayer) {}

/-- After the layers, the reached atoms record them all, those before the last layer old. -/
theorem records_afterLayers (layers : List (List GroundAtom)) :
    (afterLayers layers).Records layers.flatten layers.dropLast.flatten.length := by
  induction layers using List.reverseRecOn with
  | nil => exact records_empty
  | append_singleton ls layer ih =>
      rw [afterLayers, List.foldl_append, List.foldl_cons, List.foldl_nil, List.flatten_concat,
        List.dropLast_concat]
      exact Records.foldl_add ih.nextLayer le_rfl layer

/-- The round after layer `i` sees the atoms of the layers up to `i`, those before it old. -/
theorem records_afterLayers_take {layers : List (List GroundAtom)} {i : Nat}
    (hi : i < layers.length) :
    (afterLayers (layers.take (i + 1))).Records (layers.take (i + 1)).flatten
      (layers.take i).flatten.length := by
  have hdrop : (layers.take (i + 1)).dropLast = layers.take i := by
    rw [List.take_succ_eq_append_getElem hi, List.dropLast_concat]
  have h := records_afterLayers (layers.take (i + 1))
  rwa [hdrop] at h

end Reached

theorem flatten_take_take {layers : List (List GroundAtom)} {i : Nat} (hi : i < layers.length) :
    (layers.take (i + 1)).flatten.take (layers.take i).flatten.length = (layers.take i).flatten := by
  rw [List.take_succ_eq_append_getElem hi, List.flatten_concat, List.take_left' rfl]

section Run

variable {params : List Param} {os : List Object} {c : Condition} {layers : List (List GroundAtom)}

theorem Supported.take_mono {m n : Nat} (h : Supported params os c (layers.take m).flatten)
    (hmn : m ≤ n) : Supported params os c (layers.take n).flatten :=
  h.mono (List.take_sublist_take_left hmn).flatten.subset

/-- A round passes what its older atoms do not support exactly when no earlier round's atoms
support it; a condition without required literal is only bound by the first round. -/
theorem fresh_iff_first {i : Nat} :
    (requiredLiterals c = [] ∧ (i == 0) = true ∨
        requiredLiterals c ≠ [] ∧ ¬ Supported params os c (layers.take i).flatten) ↔
      ∀ j < i, ¬ Supported params os c (layers.take (j + 1)).flatten := by
  constructor
  · rintro (⟨-, hi⟩ | ⟨-, hfresh⟩) j hj
    · rw [beq_iff_eq] at hi
      omega
    · exact fun h => hfresh (h.take_mono hj)
  · intro hfirst
    by_cases hnil : requiredLiterals c = []
    · refine .inl ⟨hnil, beq_iff_eq.mpr ?_⟩
      cases i with
      | zero => rfl
      | succ j => exact absurd (Supported.of_nil hnil _) (hfirst j (Nat.lt_succ_self j))
    · refine .inr ⟨hnil, ?_⟩
      cases i with
      | zero =>
          rw [List.take_zero, List.flatten_nil, supported_nil_iff]
          exact hnil
      | succ j => exact hfirst j (Nat.lt_succ_self j)

/-- At most one round is the first whose atoms support a binding. -/
theorem first_supported_unique {i₁ i₂ : Nat}
    (h₁ : i₁ < layers.length ∧ Supported params os c (layers.take (i₁ + 1)).flatten ∧
      ∀ j < i₁, ¬ Supported params os c (layers.take (j + 1)).flatten)
    (h₂ : i₂ < layers.length ∧ Supported params os c (layers.take (i₂ + 1)).flatten ∧
      ∀ j < i₂, ¬ Supported params os c (layers.take (j + 1)).flatten) : i₁ = i₂ := by
  have h₁₂ : ¬ i₁ < i₂ := fun h => h₂.2.2 i₁ h h₁.2.1
  have h₂₁ : ¬ i₂ < i₁ := fun h => h₁.2.2 i₂ h h₂.2.1
  omega

/-- Some round is the first whose atoms support a binding exactly when all atoms do. -/
theorem exists_first_supported_iff (hrun : layers ≠ []) :
    (∃ i ∈ List.range layers.length, i < layers.length ∧
        Supported params os c (layers.take (i + 1)).flatten ∧
          ∀ j < i, ¬ Supported params os c (layers.take (j + 1)).flatten) ↔
      Supported params os c layers.flatten := by
  constructor
  · rintro ⟨i, -, -, hs, -⟩
    exact hs.mono (List.take_sublist _ _).flatten.subset
  · intro hs
    classical
    have hlen : 0 < layers.length := List.length_pos_iff.mpr hrun
    have hex : ∃ i, i < layers.length ∧ Supported params os c (layers.take (i + 1)).flatten := by
      refine ⟨layers.length - 1, by omega, ?_⟩
      rwa [Nat.sub_add_cancel hlen, List.take_length]
    obtain ⟨hi, hsi⟩ := Nat.find_spec hex
    exact ⟨Nat.find hex, List.mem_range.mpr hi, hi, hsi,
      fun j hj hsj => Nat.find_min hex hj ⟨by omega, hsj⟩⟩

variable {pb : Problem} (hnd : (pb.objects.map (·.name)).Nodup)
  (hvars : ∀ l ∈ requiredLiterals c, l.VarsIn params) (hnd_as : layers.flatten.Nodup)
include hnd hvars hnd_as

open Classical in
/-- The round after layer `i` passes a binding once when it is well-typed and `i` is the first
layer after which the reached atoms support it. -/
theorem count_round {i : Nat} (hi : i < layers.length) (os : List Object) :
    (newBindings pb params c (Reached.afterLayers (layers.take (i + 1))) (i == 0)).count
        (os.map .const) =
      if WellTyped pb params os ∧ Supported params os c (layers.take (i + 1)).flatten ∧
          ∀ j < i, ¬ Supported params os c (layers.take (j + 1)).flatten then 1 else 0 := by
  rw [count_newBindings (Reached.records_afterLayers_take hi)
    (hnd_as.sublist (List.take_sublist _ _).flatten) hnd hvars, flatten_take_take hi]
  exact if_congr (and_congr_right fun _ => and_congr_right fun _ => fresh_iff_first) rfl rfl

open Classical in
/-- Over the rounds of a run, a binding is passed once when it is well-typed and all reached atoms
support it. -/
theorem count_rounds (hrun : layers ≠ []) (os : List Object) :
    ((List.range layers.length).flatMap fun i =>
        newBindings pb params c (Reached.afterLayers (layers.take (i + 1))) (i == 0)).count
        (os.map .const) =
      if WellTyped pb params os ∧ Supported params os c layers.flatten then 1 else 0 := by
  -- the rounds are summed; a binding is counted at the first one whose atoms support it
  rw [List.count_flatMap, sum_map_eq_ite_of_unique List.nodup_range
    (fun i => i < layers.length ∧ Supported params os c (layers.take (i + 1)).flatten ∧
      ∀ j < i, ¬ Supported params os c (layers.take (j + 1)).flatten)
    (fun _ _ => first_supported_unique) (if WellTyped pb params os then 1 else 0)]
  · by_cases hs : Supported params os c layers.flatten
    · rw [if_pos ((exists_first_supported_iff hrun).mpr hs)]
      by_cases hwt : WellTyped pb params os
      · rw [if_pos hwt, if_pos ⟨hwt, hs⟩]
      · rw [if_neg hwt, if_neg fun h => hwt h.1]
    · rw [if_neg (mt (exists_first_supported_iff hrun).mp hs), if_neg fun h => hs h.2]
  intro i hi
  simp only [Function.comp_apply]
  rw [count_round hnd hvars hnd_as (List.mem_range.mp hi)]
  by_cases hwt : WellTyped pb params os
  · by_cases hfirst : Supported params os c (layers.take (i + 1)).flatten ∧
        ∀ j < i, ¬ Supported params os c (layers.take (j + 1)).flatten
    · rw [if_pos ⟨hwt, hfirst⟩, if_pos ⟨List.mem_range.mp hi, hfirst⟩, if_pos hwt]
    · rw [if_neg fun h => hfirst h.2, if_neg fun h => hfirst h.2]
  · rw [if_neg fun h => hwt h.1, if_neg hwt, ite_self]

end Run

open Classical in
/-- Over a run whose layers add each atom once, the atoms reached so far marked old before each
layer, the rounds pass on only well-typed bindings of objects that the reached atoms support, and
each of these exactly once: in the first round after the reached atoms support it. Without required
literal, every well-typed binding is passed on by the first round. -/
theorem semi_naive_rounds_find_each_binding_once {pb : Problem} {params : List Param}
    {c : Condition} (hnd : (pb.objects.map (·.name)).Nodup)
    (hvars : ∀ l ∈ requiredLiterals c, l.VarsIn params) {layers : List (List GroundAtom)}
    (hrun : layers ≠ []) (hnd_as : layers.flatten.Nodup) :
    let round := fun i =>
      newBindings pb params c (Reached.afterLayers (layers.take (i + 1))) (i == 0)
    (∀ args ∈ (List.range layers.length).flatMap round, ∃ os, args = os.map .const ∧
        WellTyped pb params os ∧ Supported params os c layers.flatten) ∧
      (∀ os, ((List.range layers.length).flatMap round).count (os.map .const) =
        if WellTyped pb params os ∧ Supported params os c layers.flatten then 1 else 0) ∧
      (∀ os, ∀ i < layers.length, (round i).count (os.map .const) =
        if WellTyped pb params os ∧ Supported params os c (layers.take (i + 1)).flatten ∧
            ∀ j < i, ¬ Supported params os c (layers.take (j + 1)).flatten then 1 else 0) ∧
      (requiredLiterals c = [] → ∀ os, ∀ i < layers.length, (round i).count (os.map .const) =
        if WellTyped pb params os ∧ i = 0 then 1 else 0) := by
  intro round
  refine ⟨fun args h => ?_, count_rounds hnd hvars hnd_as hrun,
    fun os i hi => count_round hnd hvars hnd_as hi os, fun hnil os i hi => ?_⟩
  · -- a binding passed on is counted, so it is well-typed and supported
    obtain ⟨i, -, hmem⟩ := List.mem_flatMap.mp h
    obtain ⟨os, rfl⟩ := exists_objects_of_mem_newBindings hnd hmem
    have hpos := List.count_pos_iff.mpr h
    rw [count_rounds hnd hvars hnd_as hrun os] at hpos
    by_cases hc : WellTyped pb params os ∧ Supported params os c layers.flatten
    · exact ⟨os, rfl, hc⟩
    · rw [if_neg hc] at hpos
      exact absurd hpos (Nat.lt_irrefl 0)
  · -- every layer supports the binding, so only the first round is the first to
    rw [count_round hnd hvars hnd_as hi os]
    refine if_congr (and_congr_right fun _ => ⟨fun h => ?_, ?_⟩) rfl rfl
    · cases i with
      | zero => rfl
      | succ j => exact absurd (Supported.of_nil hnil _) (h.2 j (Nat.lt_succ_self j))
    · rintro rfl
      exact ⟨Supported.of_nil hnil _, fun j hj => absurd hj (Nat.not_lt_zero j)⟩

/-- With objects `a` and `b`, the condition `(p ?x)` and the layers `{(p a)}` then `{(p b)}`, the
rounds pass on the binding of `?x` to `b` once. -/
theorem rounds_bind_second_layer_once :
    let pb : Problem := { objects := [⟨"a", "object"⟩, ⟨"b", "object"⟩] }
    let x : Param := ⟨"x", "object"⟩
    let c : Condition := .lit ⟨"p", [.var x], false⟩
    let layers : List (List GroundAtom) := [[⟨"p", ["a"]⟩], [⟨"p", ["b"]⟩]]
    ((List.range 2).flatMap fun i =>
        newBindings pb [x] c (Reached.afterLayers (layers.take (i + 1))) (i == 0)).count
      [.const ⟨"b", "object"⟩] = 1 := by
  intro pb x c layers
  have hlits : requiredLiterals c = [⟨"p", [.var x], false⟩] := by decide
  have hnd : (pb.objects.map (·.name)).Nodup := by decide
  have hvars : ∀ l ∈ requiredLiterals c, l.VarsIn [x] := by
    rw [hlits]
    intro l hl y hy
    rw [List.mem_singleton.mp hl, List.mem_singleton, Argument.var.injEq] at hy
    exact ⟨0, by rw [hy]; decide⟩
  have hrun : layers ≠ [] := List.cons_ne_nil _ _
  have hnd_as : layers.flatten.Nodup := by decide
  obtain ⟨-, hcount, -, -⟩ := semi_naive_rounds_find_each_binding_once hnd hvars hrun hnd_as
  have hwt : WellTyped pb [x] [⟨"b", "object"⟩] := .cons ⟨by decide, by decide⟩ .nil
  have hsupp : Supported [x] [⟨"b", "object"⟩] c layers.flatten := by
    rw [Supported, hlits]
    intro l hl
    rw [List.mem_singleton.mp hl]
    refine ⟨⟨"p", ["b"]⟩, by decide, rfl, .cons (fun i hi => ?_) .nil⟩
    have hi0 : i = 0 := by
      have h0 : [x].findIdx? (·.name == x.name) = some 0 := by decide
      exact (Option.some.inj (h0.symm.trans hi)).symm
    rw [hi0]
    rfl
  exact (hcount [⟨"b", "object"⟩]).trans (if_pos ⟨hwt, hsupp⟩)

end Pddl
