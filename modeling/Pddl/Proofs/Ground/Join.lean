import Pddl.Ground.Reachable
import Pddl.Proofs.Problem.Build
/-!
# Semi-naive joins

A binding of an operator's or an axiom's parameters to objects is supported by some atoms when
each required literal of its condition matches one of them (`LiteralMatches`): a constant names
the atom's argument, a parameter is bound to an object of that name, and any other variable takes
any value, as unification has it.

A round joins the required literals with the reached atoms semi-naively: for each position `k`,
the literals before `k` with the atoms reached before the last layer, the literal at `k` with the
atoms of the last layer, and those after `k` with all reached atoms (`layerParts`). A binding the
reached atoms support is found at the first literal that the older atoms leave unmatched.

Main statement: a round finds every well-typed binding that the reached atoms support and the
atoms before the last layer do not; the first round also finds every well-typed binding of a
condition without required literal (`newBindings_complete`).
-/

namespace Pddl

/-- The binding of the parameters to the objects `os`, one per parameter, each declared and of a
subtype of its parameter's type. -/
def WellTyped (pb : Problem) (params : List Param) (os : List Object) : Prop :=
  List.Forall₂ (fun p o => o ∈ pb.objects ∧ pb.types.isSubtype o.type p.type = true) params os

/-- An argument of a literal takes the value under the binding: a constant names it, a parameter
(the first one of the variable's name) is bound to an object of that name, and any other variable
takes any value. -/
def ArgMatches (params : List Param) (os : List Object) : Argument → String → Prop
  | .const o, v => o.name = v
  | .var x, v => ∀ i, params.findIdx? (·.name == x.name) = some i → (os.getD i default).name = v

/-- The literal matches the atom under the binding. -/
def LiteralMatches (params : List Param) (os : List Object) (l : Literal) (a : GroundAtom) : Prop :=
  l.pred = a.pred ∧ List.Forall₂ (ArgMatches params os) l.args a.args

/-- A partial binding agrees with the binding `os`: it has an entry per object, and an entry
that is set names its object. -/
def Agrees (os : List Object) (b : PartialBinding) : Prop :=
  List.Forall₂ (fun o x => ∀ v, x = some v → o.name = v) os b

section Join

variable {pb : Problem} {params : List Param} {os : List Object}

/-! ## Bindings by position -/

theorem WellTyped.getD (h : WellTyped pb params os) :
    ∀ {i : Nat}, i < params.length → os.getD i default ∈ pb.objects ∧
      pb.types.isSubtype (os.getD i default).type (params.getD i default).type = true := by
  induction h with
  | nil => exact fun hi => absurd hi (Nat.not_lt_zero _)
  | cons hpo _ ih =>
      intro i hi
      cases i with
      | zero => exact hpo
      | succ i => exact ih (Nat.lt_of_succ_lt_succ hi)

theorem agrees_none (hlen : os.length = params.length) :
    Agrees os (params.map fun _ => none) := by
  induction os generalizing params with
  | nil =>
      rw [List.length_eq_zero_iff.mp hlen.symm]
      exact .nil
  | cons o os ih =>
      cases params with
      | nil => cases hlen
      | cons p ps => exact .cons (fun _ h => nomatch h) (ih (Nat.succ.inj hlen))

theorem Agrees.getD {b : PartialBinding} (h : Agrees os b) :
    ∀ {i : Nat} {v : String}, b.getD i none = some v → (os.getD i default).name = v := by
  induction h with
  | nil => exact fun hv => nomatch hv
  | cons hox _ ih =>
      intro i v hv
      cases i with
      | zero => exact hox v hv
      | succ i => exact ih hv

/-- Binding the `i`-th parameter to the name of its object keeps the agreement. -/
theorem Agrees.set {b : PartialBinding} (h : Agrees os b) :
    ∀ {i : Nat}, Agrees os (b.set i (some (os.getD i default).name)) := by
  induction h with
  | nil => exact .nil
  | cons hox _ ih =>
      intro i
      cases i with
      | zero => exact .cons (fun v hv => Option.some.inj hv) ‹_›
      | succ i => exact .cons hox ih

/-! ## Unification -/

variable (hwt : WellTyped pb params os) (hnd : (pb.objects.map (·.name)).Nodup)
include hwt hnd

/-- An argument that takes its value under the binding unifies with it, from any partial binding
that agrees with the binding. -/
theorem unifyArg_of_matches {b : PartialBinding} (hb : Agrees os b) {arg : Argument}
    {v : String} (hm : ArgMatches params os arg v) :
    ∃ b', unifyArg pb params b (arg, v) = some b' ∧ Agrees os b' := by
  cases arg with
  | const o =>
      have hv : o.name = v := hm
      exact ⟨b, by simp [unifyArg, hv], hb⟩
  | var x =>
      cases hi : params.findIdx? (·.name == x.name) with
      | none => exact ⟨b, by simp [unifyArg, hi], hb⟩
      | some i =>
          have hv : (os.getD i default).name = v := hm i hi
          have hlt : i < params.length := (List.findIdx?_eq_some_iff_getElem.mp hi).1
          cases hbi : b.getD i none with
          | some w =>
              -- an earlier argument bound the parameter, to the same object
              have hw : (os.getD i default).name = w := hb.getD hbi
              refine ⟨b, ?_, hb⟩
              simp only [unifyArg, hi, hbi]
              rw [← hw, hv, beq_self_eq_true, if_pos rfl]
          | none =>
              obtain ⟨hmem, hsub⟩ := hwt.getD hlt
              have hfind : pb.findObject? v = some (os.getD i default) :=
                hv ▸ Problem.findObject?_of_mem hnd hmem
              refine ⟨b.set i (some v), ?_, hv ▸ hb.set⟩
              simp only [unifyArg, hi, hbi, hfind]
              rw [if_pos hsub]

/-- Arguments that take their values under the binding unify with them one after the other. -/
theorem foldlM_unifyArg_of_matches :
    ∀ {args : List Argument} {vals : List String} {b : PartialBinding}, Agrees os b →
      List.Forall₂ (ArgMatches params os) args vals →
        ∃ b', (args.zip vals).foldlM (unifyArg pb params) b = some b' ∧ Agrees os b'
  | [], [], b, hb, .nil => ⟨b, rfl, hb⟩
  | _ :: _, _ :: _, b, hb, .cons harg hrest => by
      obtain ⟨b₁, h₁, hb₁⟩ := unifyArg_of_matches hwt hnd hb harg
      obtain ⟨b', h', hb'⟩ := foldlM_unifyArg_of_matches hb₁ hrest
      refine ⟨b', ?_, hb'⟩
      rw [List.zip_cons_cons, List.foldlM_cons, h₁]
      exact h'

/-- A literal that matches an atom under the binding unifies with it, from any partial binding
that agrees with the binding. -/
theorem unify_of_matches {b : PartialBinding} (hb : Agrees os b) {l : Literal} {a : GroundAtom}
    (hm : LiteralMatches params os l a) :
    ∃ b', unify pb params l a b = some b' ∧ Agrees os b' := by
  have hlen : l.args.length = a.args.length := hm.2.length_eq
  unfold unify
  rw [if_neg (by simp [hlen])]
  exact foldlM_unifyArg_of_matches hwt hnd hb hm.2

/-- Joining literals that each match an atom of their part finds a partial binding that agrees
with the binding. -/
theorem joinLiterals_of_matches {r : Reached} :
    ∀ {parts : List (Literal × LayerPart)} {b : PartialBinding}, Agrees os b →
      (∀ x ∈ parts, ∃ a ∈ r.part x.1.pred x.2, LiteralMatches params os x.1 a) →
        ∃ b' ∈ joinLiterals pb params r parts b, Agrees os b'
  | [], b, hb, _ => ⟨b, by simp [joinLiterals], hb⟩
  | (l, p) :: rest, b, hb, hall => by
      obtain ⟨a, ha, hm⟩ := hall (l, p) (.head _)
      obtain ⟨b₁, hu, hb₁⟩ := unify_of_matches hwt hnd hb hm
      obtain ⟨b', hb', hagree⟩ :=
        joinLiterals_of_matches hb₁ fun x hx => hall x (.tail _ hx)
      refine ⟨b', ?_, hagree⟩
      simp only [joinLiterals, List.mem_flatMap]
      exact ⟨a, ha, by rw [hu]; exact hb'⟩

/-- Completing a partial binding that agrees with the binding gives the binding: its parameters
are bound to their objects, and the others range over the objects of their types. -/
theorem completeBindings_of_agrees {b : PartialBinding} (hb : Agrees os b) :
    os.map .const ∈ completeBindings pb params b := by
  unfold completeBindings
  rw [mem_cartesian]
  induction hwt generalizing b with
  | nil =>
      cases hb
      exact .nil
  | @cons p o ps os' hpo _ ih =>
      cases hb with
      | cons hox hrest =>
          refine .cons ?_ (ih hrest)
          obtain ⟨hmem, hsub⟩ := hpo
          rename_i x _
          cases x with
          | some v =>
              have hv : o.name = v := hox v rfl
              subst hv
              simp [Problem.findObject?_of_mem hnd hmem]
          | none =>
              simp [Problem.instancesOf, hmem, hsub]

/-! ## Rounds -/

omit hwt hnd in
/-- The `j`-th literal takes the older atoms before the `k`-th, the last layer at the `k`-th and
all reached atoms after it. -/
theorem mem_layerParts {lits : List Literal} {k : Nat} {x : Literal × LayerPart} :
    x ∈ layerParts lits k ↔ ∃ j, ∃ h : j < lits.length,
      x = (lits[j], if j < k then .old else if j = k then .new else .all) := by
  simp only [layerParts, List.mem_map, List.mem_zipIdx_iff_getElem?]
  constructor
  · rintro ⟨⟨l, j⟩, hj, rfl⟩
    obtain ⟨h, hl⟩ := List.getElem?_eq_some_iff.mp hj
    exact ⟨j, h, by rw [hl]⟩
  · rintro ⟨j, h, rfl⟩
    exact ⟨(lits[j], j), List.getElem?_eq_getElem h, rfl⟩

/-- A round finds every well-typed binding that the reached atoms (`All`) support and the atoms
reached before the last layer (`Old`) do not: the older atoms are the round's old part, and the
reached atoms that are not older are in its new part. The first round also finds every
well-typed binding of a condition without required literal. -/
theorem newBindings_complete {c : Condition} {r : Reached} {first : Bool}
    {Old All : GroundAtom → Prop}
    (hold : ∀ a, Old a → a ∈ r.part a.pred .old)
    (hnew : ∀ a, All a → ¬ Old a → a ∈ r.part a.pred .new)
    (hall : ∀ a, All a → a ∈ r.part a.pred .all)
    (hsupp : ∀ l ∈ requiredLiterals c, ∃ a, All a ∧ LiteralMatches params os l a)
    (hfirst : requiredLiterals c = [] → first = true)
    (hfresh : requiredLiterals c ≠ [] →
      ¬ ∀ l ∈ requiredLiterals c, ∃ a, Old a ∧ LiteralMatches params os l a) :
    os.map .const ∈ newBindings pb params c r first := by
  have hempty : Agrees os (params.map fun _ => none) := agrees_none hwt.length_eq.symm
  unfold newBindings
  simp only
  split
  · rename_i hemp
    rw [if_pos (hfirst (List.isEmpty_iff.mp hemp))]
    exact completeBindings_of_agrees hwt hnd hempty
  · rename_i hemp
    classical
    -- the first literal that the older atoms leave unmatched takes the last layer
    have hex : ∃ k, ∃ h : k < (requiredLiterals c).length,
        ¬ ∃ a, Old a ∧ LiteralMatches params os (requiredLiterals c)[k] a := by
      have hne : requiredLiterals c ≠ [] := fun h => hemp (List.isEmpty_iff.mpr h)
      refine Classical.byContradiction fun hno => hfresh hne fun l hl => ?_
      obtain ⟨k, hk, rfl⟩ := List.getElem_of_mem hl
      exact Classical.byContradiction fun hl' => hno ⟨k, hk, hl'⟩
    obtain ⟨hk, hunmatched⟩ := Nat.find_spec hex
    have hbefore : ∀ j (h : j < (requiredLiterals c).length), j < Nat.find hex →
        ∃ a, Old a ∧ LiteralMatches params os (requiredLiterals c)[j] a := fun j h hj =>
      Classical.byContradiction fun hno => Nat.find_min hex hj ⟨h, hno⟩
    have hparts : ∀ x ∈ layerParts (requiredLiterals c) (Nat.find hex),
        ∃ a ∈ r.part x.1.pred x.2, LiteralMatches params os x.1 a := by
      intro x hx
      obtain ⟨j, h, rfl⟩ := mem_layerParts.mp hx
      have hmem : (requiredLiterals c)[j] ∈ requiredLiterals c := List.getElem_mem h
      by_cases hjk : j < Nat.find hex
      · obtain ⟨a, ha, hm⟩ := hbefore j h hjk
        rw [if_pos hjk, hm.1]
        exact ⟨a, hold a ha, hm⟩
      · obtain ⟨a, ha, hm⟩ := hsupp _ hmem
        rw [if_neg hjk, hm.1]
        by_cases hjk' : j = Nat.find hex
        · subst hjk'
          rw [if_pos rfl]
          exact ⟨a, hnew a ha fun hold' => hunmatched ⟨a, hold', hm⟩, hm⟩
        · rw [if_neg hjk']
          exact ⟨a, hall a ha, hm⟩
    obtain ⟨b, hb, hagree⟩ := joinLiterals_of_matches hwt hnd hempty hparts
    simp only [List.mem_flatMap, List.mem_range]
    exact ⟨Nat.find hex, hk, b, hb, completeBindings_of_agrees hwt hnd hagree⟩

end Join

end Pddl
