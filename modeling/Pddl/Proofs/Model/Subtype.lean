import Pddl.Proofs.Problem.Build
/-!
# Subtypes are reachability

Types are declared one after another, each with a parent; an undeclared parent is declared on
the way as a child of the root, and declaring a type again adds a parent. Nothing stops parent
links from going round in a cycle.

On every hierarchy built so (`declare`), every recorded parent is declared and the root has no
parent (`WellFormed`). The library's test `isSubtype` gathers the declared types reachable from
a type (`mem_gather_iff`), so it holds exactly when the second type is the root or parent links
lead to it (`isSubtype_eq_true_iff`); it is reflexive and transitive, and the instances of a type
are the objects whose type reaches it.

The recursive test `subtypeSearch`, the one the planner runs, gives the same answer whenever it
ends (`subtypeSearch_eq_some`), and it ends unless it meets a cycle of parent links on the way
(`subtypeSearch_eq_none`). Declaring `a` below `b` and then `b` below `a` makes such a cycle: the
recursive test of `a` below an unrelated type then never ends (`cyclic_subtype_test_never_ends`).

Main statement: `subtypes_are_reachability`.
-/

namespace Pddl

namespace TypeHierarchy

/-- The hierarchy after declaring each type with its parent, in order, from the root alone. -/
def declare (calls : List (String × Option String)) : TypeHierarchy :=
  calls.foldl (fun h c => h.addType c.1 c.2) {}

/-- A recorded parent link from `x` to its parent `y`. -/
def ParentLink (h : TypeHierarchy) (x y : String) : Prop := y ∈ h.parentsOf x

/-- Every recorded parent is declared, and the root is declared without parent. -/
structure WellFormed (h : TypeHierarchy) : Prop where
  parents_declared : ∀ e ∈ h.entries, ∀ p ∈ e.2, p ∈ h.names
  root : h.parents? topType = some []

/-! ## Declarations keep the hierarchy well formed -/

section Declare

variable {h : TypeHierarchy} {t x y : String} {ps : List String}

theorem mem_entries_of_parents? (hp : h.parents? t = some ps) : (t, ps) ∈ h.entries := by
  unfold parents? at hp
  obtain ⟨e, he, rfl⟩ := Option.map_eq_some_iff.mp hp
  have het : e.1 = t := by simpa using List.find?_some he
  rw [← het]
  exact List.mem_of_find?_eq_some he

theorem parents?_of_mem_names_append {es : List (String × List String)} (ht : t ∈ h.names) :
    (⟨h.entries ++ es⟩ : TypeHierarchy).parents? t = h.parents? t := by
  obtain ⟨e, he, rfl⟩ := List.mem_map.mp ht
  have hsome : (h.entries.find? (·.1 == e.1)).isSome := List.find?_isSome.mpr ⟨e, he, by simp⟩
  obtain ⟨f, hf⟩ := Option.isSome_iff_exists.mp hsome
  simp [parents?, List.find?_append, hf]

theorem names_append {es : List (String × List String)} :
    (⟨h.entries ++ es⟩ : TypeHierarchy).names = h.names ++ es.map (·.1) := by
  simp [names]

theorem mem_names_of_mem_parentsOf (hw : WellFormed h) (hy : y ∈ h.parentsOf x) : y ∈ h.names := by
  unfold parentsOf at hy
  cases hp : h.parents? x with
  | none => simp [hp] at hy
  | some ps =>
      rw [hp, Option.getD_some] at hy
      exact hw.parents_declared _ (mem_entries_of_parents? hp) y hy

theorem parentsOf_eq_nil_of_not_mem (ht : t ∉ h.names) : h.parentsOf t = [] := by
  cases hp : h.parents? t with
  | none => simp [parentsOf, hp]
  | some ps => exact absurd (mem_names_of_parents? hp) ht

theorem WellFormed.root_mem (hw : WellFormed h) : topType ∈ h.names :=
  mem_names_of_parents? hw.root

/-- Appending a type whose parents are declared, or the type itself, keeps a hierarchy well
formed. -/
theorem WellFormed.append (hw : WellFormed h) {e : String × List String}
    (he : ∀ p ∈ e.2, p ∈ h.names ∨ p = e.1) : WellFormed ⟨h.entries ++ [e]⟩ where
  parents_declared e' he' p hp := by
    rw [names_append]
    rcases List.mem_append.mp he' with he' | he'
    · exact List.mem_append_left _ (hw.parents_declared e' he' p hp)
    · rw [List.mem_singleton] at he'
      subst he'
      rcases he p hp with hp | rfl
      · exact List.mem_append_left _ hp
      · simp
  root := by rw [parents?_of_mem_names_append hw.root_mem, hw.root]

/-- Adding a declared parent to the entries of a type other than the root keeps a hierarchy well
formed. -/
theorem WellFormed.addParent (hw : WellFormed h) (ht : t ≠ topType) {p : String}
    (hp : p ∈ h.names) :
    WellFormed ⟨h.entries.map fun e => if e.1 == t && !e.2.contains p then (e.1, e.2 ++ [p]) else e⟩
    where
  parents_declared e' he' q hq := by
    have hnames : (⟨h.entries.map fun e => if e.1 == t && !e.2.contains p then (e.1, e.2 ++ [p])
        else e⟩ : TypeHierarchy).names = h.names := by
      simp only [names, List.map_map]
      refine List.map_congr_left fun e _ => ?_
      simp only [Function.comp_apply]
      split <;> rfl
    rw [hnames]
    obtain ⟨e, he, rfl⟩ := List.mem_map.mp he'
    split at hq
    · rcases List.mem_append.mp hq with hq | hq
      · exact hw.parents_declared e he q hq
      · rw [List.mem_singleton] at hq
        exact hq ▸ hp
    · exact hw.parents_declared e he q hq
  root := by
    have hroot := hw.root
    unfold parents? at hroot ⊢
    rw [List.find?_map]
    obtain ⟨e, he, hpe⟩ := Option.map_eq_some_iff.mp hroot
    have het : e.1 = topType := by simpa using List.find?_some he
    have hfind : h.entries.find? ((fun e => e.1 == topType) ∘
        fun e => if e.1 == t && !e.2.contains p then (e.1, e.2 ++ [p]) else e) =
        h.entries.find? (·.1 == topType) := by
      congr 1
      funext e
      simp only [Function.comp_apply]
      split <;> rfl
    rw [hfind, he]
    have het' : e.1 ≠ t := het ▸ Ne.symm ht
    simp [het', hpe]

/-- Declaring a type keeps a hierarchy well formed. -/
theorem WellFormed.addType (hw : WellFormed h) (n : String) (parent : Option String) :
    WellFormed (h.addType n parent) := by
  unfold TypeHierarchy.addType
  split
  · exact hw
  · next hn =>
      dsimp only
      -- first the parent is declared, if it is not, as a child of the root
      have h₁ : WellFormed (if h.contains (parent.getD topType) = true then h
          else ⟨h.entries ++ [(parent.getD topType, [topType])]⟩) := by
        split
        · exact hw
        · exact hw.append fun q hq => .inl (by simp at hq; exact hq ▸ hw.root_mem)
      have hp : parent.getD topType ∈ (if h.contains (parent.getD topType) = true then h
          else ⟨h.entries ++ [(parent.getD topType, [topType])]⟩).names := by
        split
        · next hc => exact contains_iff_mem_names.mp hc
        · simp [names]
      generalize (if h.contains (parent.getD topType) = true then h
          else ⟨h.entries ++ [(parent.getD topType, [topType])]⟩) = q at h₁ hp ⊢
      -- then the type gains the parent, or is appended with it
      split
      · exact h₁.addParent hn hp
      · exact h₁.append fun r hr => .inl (by simp at hr; exact hr ▸ hp)

theorem wellFormed_declare (calls : List (String × Option String)) :
    WellFormed (declare calls) := by
  unfold declare
  suffices ∀ h₀ : TypeHierarchy, WellFormed h₀ →
      WellFormed (calls.foldl (fun h c => h.addType c.1 c.2) h₀) from
    this {} ⟨by simp, rfl⟩
  induction calls with
  | nil => exact fun h₀ hw => hw
  | cons c cs ih => exact fun h₀ hw => ih _ (hw.addType c.1 c.2)

end Declare

/-! ## Gathering reachable types -/

/-- `PathWithin next S a b`: following `next` from `a` leads to `b` through nodes satisfying `S`
only, both ends included. -/
inductive PathWithin (next : String → List String) (S : String → Prop) : String → String → Prop
  | refl {a : String} : S a → PathWithin next S a a
  | tail {a b c : String} : PathWithin next S a b → c ∈ next b → S c → PathWithin next S a c

namespace PathWithin

variable {next : String → List String} {S S' : String → Prop} {a b c : String}

theorem start (w : PathWithin next S a b) : S a := by
  induction w with
  | refl ha => exact ha
  | tail _ _ _ ih => exact ih

theorem mono (hS : ∀ x, S x → S' x) (w : PathWithin next S a b) : PathWithin next S' a b := by
  induction w with
  | refl ha => exact .refl (hS _ ha)
  | tail _ hc hSc ih => exact .tail ih hc (hS _ hSc)

/-- A path can start one step earlier. -/
theorem head (ha : S a) (hb : b ∈ next a) (w : PathWithin next S b c) : PathWithin next S a c := by
  induction w with
  | refl hb' => exact .tail (.refl ha) hb hb'
  | tail _ hc hSc ih => exact .tail ih hc hSc

/-- A path either ends at `p`, avoids `p`, or has a part after its last visit of `p` that avoids
`p` and starts at one of the next nodes of `p`. -/
theorem avoid (p : String) (w : PathWithin next S a b) :
    b = p ∨ PathWithin next (fun x => S x ∧ x ≠ p) a b ∨
      ∃ q ∈ next p, PathWithin next (fun x => S x ∧ x ≠ p) q b := by
  induction w with
  | refl ha =>
      by_cases hap : a = p
      · exact .inl hap
      · exact .inr (.inl (.refl ⟨ha, hap⟩))
  | @tail b c _ hc hSc ih =>
      by_cases hcp : c = p
      · exact .inl hcp
      · rcases ih with rfl | w | ⟨q, hq, w⟩
        · exact .inr (.inr ⟨c, hc, .refl ⟨hSc, hcp⟩⟩)
        · exact .inr (.inl (.tail w hc ⟨hSc, hcp⟩))
        · exact .inr (.inr ⟨q, hq, .tail w hc ⟨hSc, hcp⟩⟩)

theorem finish (w : PathWithin next S a b) : S b := by
  cases w with
  | refl ha => exact ha
  | tail _ _ hSc => exact hSc

theorem reflTransGen (w : PathWithin next S a b) :
    Relation.ReflTransGen (fun x y => y ∈ next x) a b := by
  induction w with
  | refl => exact .refl
  | tail _ hc _ ih => exact ih.tail hc

end PathWithin

theorem gather_of_none {next : String → List String} {remaining pending : List String}
    (h : pending.find? remaining.contains = none) : gather next remaining pending = [] := by
  rw [gather]
  split
  · rfl
  · rename_i hs
    rw [h] at hs
    cases hs

theorem gather_of_some {next : String → List String} {remaining pending : List String}
    {s : String} (h : pending.find? remaining.contains = some s) :
    gather next remaining pending = s :: gather next (remaining.erase s) (next s ++ pending) := by
  rw [gather]
  split
  · rename_i hs
    rw [h] at hs
    cases hs
  · rename_i hs
    rw [h] at hs
    cases hs
    rfl

/-- Gathering lists the nodes left that a path through nodes left leads to from a seed. -/
theorem mem_gather_iff (next : String → List String) (remaining pending : List String)
    (x : String) : x ∈ gather next remaining pending ↔
      x ∈ remaining ∧ ∃ p ∈ pending, PathWithin next (· ∈ remaining) p x := by
  induction remaining, pending using gather.induct next with
  | case1 remaining pending hnone =>
      rw [gather_of_none hnone]
      simp only [List.not_mem_nil, false_iff, not_and, not_exists]
      intro _ p hp w
      -- a seed that is left would have been found
      have := List.find?_eq_none.mp hnone p hp
      simp [w.start] at this
  | case2 remaining pending s hsome ih =>
      rw [gather_of_some hsome, List.mem_cons, ih]
      have hs : s ∈ remaining := by simpa using List.find?_some hsome
      have hsp : s ∈ pending := List.mem_of_find?_eq_some hsome
      have herase : ∀ y, y ∈ remaining.erase s → y ∈ remaining := fun y => List.mem_of_mem_erase
      constructor
      · rintro (rfl | ⟨hx, q, hq, w⟩)
        · exact ⟨hs, x, hsp, .refl hs⟩
        · refine ⟨herase x hx, ?_⟩
          rcases List.mem_append.mp hq with hq | hq
          · exact ⟨s, hsp, (w.mono herase).head hs hq⟩
          · exact ⟨q, hq, w.mono herase⟩
      · rintro ⟨hx, q, hq, w⟩
        by_cases hxs : x = s
        · exact .inl hxs
        · refine .inr ⟨(List.mem_erase_of_ne hxs).mpr hx, ?_⟩
          have hleft : ∀ y, (y ∈ remaining ∧ y ≠ s) → y ∈ remaining.erase s :=
            fun y hy => (List.mem_erase_of_ne hy.2).mpr hy.1
          rcases w.avoid s with hxs' | w | ⟨q', hq', w⟩
          · exact absurd hxs' hxs
          · exact ⟨q, List.mem_append_right _ hq, w.mono hleft⟩
          · exact ⟨q', List.mem_append_left _ hq', w.mono hleft⟩

/-! ## The library's test -/

section Library

variable {h : TypeHierarchy} {a b c : String}

/-- On a well-formed hierarchy, the declared types reachable from a declared type are those
parent links lead to. -/
theorem pathWithin_names_iff (hw : WellFormed h) :
    PathWithin h.parentsOf (· ∈ h.names) a b ↔
      a ∈ h.names ∧ Relation.ReflTransGen (ParentLink h) a b := by
  constructor
  · intro w
    exact ⟨w.start, w.reflTransGen⟩
  · rintro ⟨ha, hr⟩
    induction hr with
    | refl => exact .refl ha
    | tail _ hc ih => exact .tail ih hc (mem_names_of_mem_parentsOf hw hc)

/-- The library's test is reachability: `b` is the root, or parent links lead from `a` to `b`. -/
theorem isSubtype_eq_true_iff (hw : WellFormed h) :
    h.isSubtype a b = true ↔ b = topType ∨ Relation.ReflTransGen (ParentLink h) a b := by
  have hanc : b ∈ h.ancestors a ↔ a ∈ h.names ∧ Relation.ReflTransGen (ParentLink h) a b := by
    rw [ancestors, mem_gather_iff, ← pathWithin_names_iff hw]
    simp only [List.mem_singleton, exists_eq_left]
    exact ⟨fun hb => hb.2, fun w => ⟨w.finish, w⟩⟩
  simp only [isSubtype, Bool.or_eq_true, beq_iff_eq, List.contains_iff_mem, hanc]
  constructor
  · rintro ((rfl | rfl) | ⟨-, hr⟩)
    · exact .inr .refl
    · exact .inl rfl
    · exact .inr hr
  · rintro (rfl | hr)
    · exact .inl (.inr rfl)
    · by_cases ha : a ∈ h.names
      · exact .inr ⟨ha, hr⟩
      · -- an undeclared type has no parent, so the path has no link
        rcases Relation.ReflTransGen.cases_head hr with rfl | ⟨d, hd, -⟩
        · exact .inl (.inl rfl)
        · rw [ParentLink, parentsOf_eq_nil_of_not_mem ha] at hd
          simp at hd

theorem isSubtype_refl (a : String) : h.isSubtype a a = true := by
  simp [isSubtype]

/-- The root has no parent, so only the root is reached from it. -/
theorem eq_topType_of_reach_topType (hw : WellFormed h)
    (hr : Relation.ReflTransGen (ParentLink h) topType b) : b = topType := by
  rcases Relation.ReflTransGen.cases_head hr with rfl | ⟨d, hd, -⟩
  · rfl
  · simp [ParentLink, parentsOf, hw.root] at hd

theorem isSubtype_trans (hw : WellFormed h) (hab : h.isSubtype a b = true)
    (hbc : h.isSubtype b c = true) : h.isSubtype a c = true := by
  rw [isSubtype_eq_true_iff hw] at hab hbc ⊢
  rcases hbc with rfl | hbc
  · exact .inl rfl
  · rcases hab with rfl | hab
    · exact .inl (eq_topType_of_reach_topType hw hbc)
    · exact .inr (hab.trans hbc)

end Library

/-! ## The recursive test -/

section Recursive

variable {h : TypeHierarchy} {b : String} {inside : List String} {a : String}

theorem firstSuccess_eq_some_true {l : List (Option Bool)} (hl : firstSuccess l = some true) :
    some true ∈ l := by
  induction l with
  | nil => simp [firstSuccess] at hl
  | cons o l ih =>
      match o, hl with
      | some true, _ => exact List.mem_cons_self
      | some false, hl => exact List.mem_cons_of_mem _ (ih hl)

theorem firstSuccess_eq_some_false {l : List (Option Bool)} (hl : firstSuccess l = some false) :
    ∀ o ∈ l, o = some false := by
  induction l with
  | nil => simp
  | cons o l ih =>
      match o, hl with
      | some false, hl =>
          intro o' ho'
          rcases List.mem_cons.mp ho' with rfl | ho'
          · rfl
          · exact ih hl o' ho'

theorem firstSuccess_eq_none {l : List (Option Bool)} (hl : firstSuccess l = none) : none ∈ l := by
  induction l with
  | nil => simp [firstSuccess] at hl
  | cons o l ih =>
      match o, hl with
      | none, _ => exact List.mem_cons_self
      | some false, hl => exact List.mem_cons_of_mem _ (ih hl)

theorem subtypeSearch_of_found (hab : (a == b || b == topType) = true) :
    h.subtypeSearch b inside a = some true := by
  rw [subtypeSearch, if_pos hab]

theorem subtypeSearch_of_inside (hab : ¬(a == b || b == topType) = true)
    (hin : inside.contains a = true) : h.subtypeSearch b inside a = none := by
  rw [subtypeSearch, if_neg hab, if_pos hin]

theorem subtypeSearch_of_undeclared (hab : ¬(a == b || b == topType) = true)
    (hin : ¬inside.contains a = true) (hp : h.parents? a = none) :
    h.subtypeSearch b inside a = some false := by
  rw [subtypeSearch, if_neg hab, if_neg hin]
  split
  · rfl
  · rename_i hs
    rw [hp] at hs
    cases hs

theorem subtypeSearch_of_parents (hab : ¬(a == b || b == topType) = true)
    (hin : ¬inside.contains a = true) {ps : List String} (hp : h.parents? a = some ps) :
    h.subtypeSearch b inside a = firstSuccess (ps.map (h.subtypeSearch b (a :: inside))) := by
  rw [subtypeSearch, if_neg hab, if_neg hin]
  split
  · rename_i hs
    rw [hp] at hs
    cases hs
  · rename_i hs
    rw [hp] at hs
    cases hs
    rfl

/-- Wherever the recursive test ends, it answers whether `b` is the root or reached from `a`. -/
theorem subtypeSearch_eq_some {v : Bool} (hs : h.subtypeSearch b inside a = some v) :
    (v = true ↔ b = topType ∨ Relation.ReflTransGen (ParentLink h) a b) := by
  induction inside, a using subtypeSearch.induct h b generalizing v with
  | case1 inside a hab =>
      rw [subtypeSearch_of_found hab] at hs
      cases hs
      simp only [Bool.or_eq_true, beq_iff_eq] at hab
      rcases hab with rfl | rfl
      · exact ⟨fun _ => .inr .refl, fun _ => rfl⟩
      · exact ⟨fun _ => .inl rfl, fun _ => rfl⟩
  | case2 inside a hab hin =>
      rw [subtypeSearch_of_inside hab hin] at hs
      cases hs
  | case3 inside a hab hin hp =>
      rw [subtypeSearch_of_undeclared hab hin hp] at hs
      cases hs
      simp only [Bool.or_eq_true, beq_iff_eq, not_or] at hab
      -- a type without parents reaches only itself
      refine ⟨fun hv => absurd hv Bool.false_ne_true, ?_⟩
      rintro (hb | hr)
      · exact absurd hb hab.2
      · rcases Relation.ReflTransGen.cases_head hr with rfl | ⟨d, hd, -⟩
        · exact absurd rfl hab.1
        · simp [ParentLink, parentsOf, hp] at hd
  | case4 inside a hab hin ps hp ih =>
      rw [subtypeSearch_of_parents hab hin hp] at hs
      simp only [Bool.or_eq_true, beq_iff_eq, not_or] at hab
      have hlink : ∀ p, ParentLink h a p ↔ p ∈ ps := fun p => by simp [ParentLink, parentsOf, hp]
      cases v with
      | true =>
          obtain ⟨p, hp', hps⟩ := List.mem_map.mp (firstSuccess_eq_some_true hs)
          have := (ih p hps).mp rfl
          refine ⟨fun _ => ?_, fun _ => rfl⟩
          rcases this with hb | hr
          · exact .inl hb
          · exact .inr (Relation.ReflTransGen.head ((hlink p).mpr hp') hr)
      | false =>
          have hall := firstSuccess_eq_some_false hs
          refine ⟨fun hv => absurd hv Bool.false_ne_true, ?_⟩
          rintro (hb | hr)
          · exact (hab.2 hb).elim
          · rcases Relation.ReflTransGen.cases_head hr with rfl | ⟨d, hd, hdb⟩
            · exact (hab.1 rfl).elim
            · -- the parent on the way answered no, although it reaches `b`
              have hd' := (hlink d).mp hd
              have := (ih d (hall _ (List.mem_map_of_mem hd'))).mpr (.inr hdb)
              cases this

/-- The recursive test fails to end only past a type it is inside of, or on a cycle of parent
links. -/
theorem subtypeSearch_eq_none (hs : h.subtypeSearch b inside a = none) :
    ∃ x, Relation.ReflTransGen (ParentLink h) a x ∧
      (x ∈ inside ∨ Relation.TransGen (ParentLink h) x x) := by
  induction inside, a using subtypeSearch.induct h b with
  | case1 inside a hab =>
      rw [subtypeSearch_of_found hab] at hs
      cases hs
  | case2 inside a hab hin =>
      exact ⟨a, .refl, .inl (by simpa using hin)⟩
  | case3 inside a hab hin hp =>
      rw [subtypeSearch_of_undeclared hab hin hp] at hs
      cases hs
  | case4 inside a hab hin ps hp ih =>
      rw [subtypeSearch_of_parents hab hin hp] at hs
      obtain ⟨p, hps, hpn⟩ := List.mem_map.mp (firstSuccess_eq_none hs)
      have hlink : ParentLink h a p := by simp [ParentLink, parentsOf, hp, hps]
      obtain ⟨x, hpx, hx⟩ := ih p hpn
      refine ⟨x, Relation.ReflTransGen.head hlink hpx, ?_⟩
      rcases hx with hx | hx
      · rcases List.mem_cons.mp hx with rfl | hx
        · -- the test came back to `a`: the links from `a` to `p` and on to `a` go round
          exact .inr (Relation.TransGen.head' hlink hpx)
        · exact .inl hx
      · exact .inr hx

end Recursive

/-! ## Subtypes -/

/-- On every hierarchy built by declarations, in any order, with repeated declarations and
several parents, the library's subtype test is reachability: `a` is below `b` exactly when `b`
is the root or parent links lead from `a` to `b`. The test is reflexive and transitive, and the
instances of a type are the objects whose type reaches it, in declaration order. The recursive
test answers the same wherever it ends, and it ends unless parent links lead from `a` to a
cycle. -/
theorem subtypes_are_reachability (calls : List (String × Option String)) :
    (∀ a b, (declare calls).isSubtype a b = true ↔
      b = topType ∨ Relation.ReflTransGen (ParentLink (declare calls)) a b) ∧
    (∀ a, (declare calls).isSubtype a a = true) ∧
    (∀ a b c, (declare calls).isSubtype a b = true → (declare calls).isSubtype b c = true →
      (declare calls).isSubtype a c = true) ∧
    (∀ pb : Problem, pb.types = declare calls → ∀ t,
      (pb.instancesOf t).Sublist pb.objects ∧ ∀ o, o ∈ pb.instancesOf t ↔ o ∈ pb.objects ∧
        (t = topType ∨ Relation.ReflTransGen (ParentLink (declare calls)) o.type t)) ∧
    (∀ a b v, (declare calls).subtypeSearch b [] a = some v →
      v = (declare calls).isSubtype a b) ∧
    (∀ a b, (declare calls).subtypeSearch b [] a = none →
      ∃ x, Relation.ReflTransGen (ParentLink (declare calls)) a x ∧
        Relation.TransGen (ParentLink (declare calls)) x x) := by
  have hw := wellFormed_declare calls
  refine ⟨fun a b => isSubtype_eq_true_iff hw, isSubtype_refl, fun a b c => isSubtype_trans hw,
    fun pb hpb t => ⟨List.filter_sublist, fun o => ?_⟩, fun a b v hs => ?_, fun a b hs => ?_⟩
  · simp only [Problem.instancesOf, List.mem_filter, hpb, isSubtype_eq_true_iff hw]
  · have hiff := subtypeSearch_eq_some hs
    rw [← isSubtype_eq_true_iff hw] at hiff
    exact Bool.eq_iff_iff.mpr hiff
  · -- the search starts with nothing inside, so what it met is a cycle
    obtain ⟨x, hx, hcyc⟩ := subtypeSearch_eq_none hs
    exact ⟨x, hx, hcyc.resolve_left List.not_mem_nil⟩

/-- Declaring `a` below `b` and then `b` below `a` makes parent links go round: the recursive test
of `a` below a third type never ends, while the library's test answers no. -/
theorem cyclic_subtype_test_never_ends :
    (declare [("a", some "b"), ("b", some "a")]).subtypeSearch "c" [] "a" = none ∧
      (declare [("a", some "b"), ("b", some "a")]).isSubtype "a" "c" = false := by
  constructor <;> cbv

end TypeHierarchy

end Pddl
