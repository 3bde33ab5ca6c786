import Pddl.Ground.Stratify
import Pddl.Proofs.Except
/-!
# Stratification is exact

`stratify` gives each derived predicate a level by raising levels rule after rule until no rule
asks for more, and fails as soon as a rule asks for a level as high as the number of derived
predicates. This module shows that this decides exactly whether the rules can be stratified.

The dependency graph has an edge from the predicate of each guard literal that heads some rule
to the predicate of the rule's head, with the sign of the literal (`DependsOn`); literals of the
residual formula count. Levels stratify the rules (`Stratifies`) when they do not decrease along
positive edges and rise along negative ones, and no such levels exist when a closed walk goes
through a negative edge (`NegativeCycle`).

Two facts carry every round (`LevelsInv`). No level exceeds the one that any stratification
gives, and each level counts the negative edges of some walk that ends at its predicate. The
first keeps the levels of stratifiable rules below the bound; the second, with a pigeonhole on
the targets of the negative edges of a long walk (`DependencyWalk.landings`), makes the bound
reachable only past a negative cycle. A round that changes a level raises the sum of the levels,
which stays below `n * n` for `n` derived predicates, so the rounds end at a fixpoint before
their fuel runs out (`settleLevels_outcome`).

Main statement: `stratify_exact`. On success the levels are the least that stratify the rules,
the rules are sorted stably by level, and the strata count the rules at each level or below.
-/

namespace Pddl

/-! ## The dependency graph -/

section Graph

variable (t : AtomTable) (axs : List GroundAxiom)

/-- A derived predicate: one that heads a rule of the list. -/
def Derived (p : String) : Prop := p ∈ axs.map (·.head t)

/-- An edge of the dependency graph: a rule whose head has predicate `h` has a guard literal of
the given sign on an atom of the derived predicate `p`. -/
def DependsOn (p h : String) (positive : Bool) : Prop :=
  Derived t axs p ∧ ∃ ax ∈ axs, ax.head t = h ∧
    ∃ a, (a, positive) ∈ ax.guard.literals ∧ (t.get a).pred = p

/-- Walks of the dependency graph, with the number of negative edges on them. -/
inductive DependencyWalk : String → String → Nat → Prop
  | refl (p : String) : DependencyWalk p p 0
  | step {p q r : String} {k : Nat} {positive : Bool} :
      DependencyWalk p q k → DependsOn t axs q r positive →
      DependencyWalk p r (if positive then k else k + 1)

/-- A closed walk through a negative edge: a derived predicate depends negatively on itself. -/
def NegativeCycle : Prop := ∃ p k, 0 < k ∧ DependencyWalk t axs p p k

/-- A walk leads to `p` from a closed walk through a negative edge. -/
def AfterNegativeCycle (p : String) : Prop :=
  ∃ q k j, 0 < k ∧ DependencyWalk t axs q q k ∧ DependencyWalk t axs q p j

/-- Levels that do not decrease along positive edges and rise along negative ones. -/
def Stratifies (L : String → Nat) : Prop :=
  ∀ p h positive, DependsOn t axs p h positive → if positive then L p ≤ L h else L p < L h

/-- The least levels that stratify the rules. -/
def LeastStratification (L : String → Nat) : Prop :=
  Stratifies t axs L ∧ ∀ L', Stratifies t axs L' → ∀ p, L p ≤ L' p

end Graph

section Graph

variable {t : AtomTable} {axs : List GroundAxiom}

theorem DependsOn.derived_head {p h : String} {positive : Bool}
    (e : DependsOn t axs p h positive) : Derived t axs h := by
  obtain ⟨-, ax, hax, rfl, -⟩ := e
  exact List.mem_map_of_mem hax

theorem AfterNegativeCycle.negativeCycle {p : String} (h : AfterNegativeCycle t axs p) :
    NegativeCycle t axs := by
  obtain ⟨q, k, -, hk, w, -⟩ := h
  exact ⟨q, k, hk, w⟩

namespace DependencyWalk

/-- Levels that stratify the rules rise along a walk by at least its number of negative edges. -/
theorem le_of_stratifies {L : String → Nat} (hL : Stratifies t axs L) {p q : String} {k : Nat}
    (w : DependencyWalk t axs p q k) : L p + k ≤ L q := by
  induction w with
  | refl => simp
  | @step q r k positive _ e ih =>
      have he := hL q r positive e
      cases positive <;> simp at he ⊢ <;> omega

/-- The start of a walk and the targets of its negative edges, one more than their number. Each
of them leads to the end of the walk, and either they are all distinct or the walk passes
through a closed walk with a negative edge. -/
theorem landings {q p : String} {k : Nat} (w : DependencyWalk t axs q p k) :
    ∃ ls : List String, ls.length = k + 1 ∧ (∀ x ∈ ls, x = q ∨ Derived t axs x) ∧
      (∀ x ∈ ls, ∃ j, DependencyWalk t axs x p j) ∧ (ls.Nodup ∨ AfterNegativeCycle t axs p) := by
  induction w with
  | refl => exact ⟨[q], rfl, by simp, by simpa using ⟨0, .refl q⟩, .inl (by simp)⟩
  | @step p r k positive _ e ih =>
      obtain ⟨ls, hlen, hmem, hreach, hnd⟩ := ih
      have extend : ∀ x ∈ ls, ∃ j, DependencyWalk t axs x r j := fun x hx => by
        obtain ⟨j, wx⟩ := hreach x hx
        exact ⟨_, wx.step e⟩
      have after : AfterNegativeCycle t axs p → AfterNegativeCycle t axs r := by
        rintro ⟨c, kc, j, hk, hc, wc⟩
        exact ⟨c, kc, _, hk, hc, wc.step e⟩
      cases positive with
      | true => exact ⟨ls, by simpa using hlen, hmem, extend, hnd.imp_right after⟩
      | false =>
          refine ⟨r :: ls, by simp [hlen], ?_, ?_, ?_⟩
          · intro x hx
            rcases List.mem_cons.mp hx with rfl | hx
            · exact .inr e.derived_head
            · exact hmem x hx
          · intro x hx
            rcases List.mem_cons.mp hx with rfl | hx
            · exact ⟨0, .refl x⟩
            · exact extend x hx
          · by_cases hin : r ∈ ls
            · -- the walk passed through `r` before: from there it comes back through `e`
              obtain ⟨j, wr⟩ := hreach r hin
              exact .inr ⟨r, j + 1, 0, by omega, wr.step e, .refl r⟩
            · exact hnd.imp (fun hnd => List.nodup_cons.mpr ⟨hin, hnd⟩) after

/-- A walk from a derived predicate with at least as many negative edges as there are derived
predicates passes through a closed walk with a negative edge. -/
theorem afterNegativeCycle_of_long {K : List String} (hK : ∀ x, Derived t axs x → x ∈ K)
    {q p : String} {k : Nat} (w : DependencyWalk t axs q p k) (hq : Derived t axs q)
    (hk : K.length ≤ k) : AfterNegativeCycle t axs p := by
  obtain ⟨ls, hlen, hmem, -, hnd⟩ := w.landings
  refine hnd.resolve_left fun hnd => ?_
  have hsub : ls ⊆ K := fun x hx => hK x ((hmem x hx).elim (fun h => h ▸ hq) id)
  have := hnd.length_le_of_subset hsub
  omega

end DependencyWalk

/-- Rules that have a stratification have no negative cycle. -/
theorem not_negativeCycle_of_stratifies {L : String → Nat} (hL : Stratifies t axs L) :
    ¬ NegativeCycle t axs := by
  rintro ⟨p, k, hk, w⟩
  have := w.le_of_stratifies hL
  omega

end Graph

/-! ## Level lists -/

namespace Levels

variable {lv : Levels} {p h : String} {r l : Nat}

/-- The sum of the levels, which every raise increases. -/
def total (lv : Levels) : Nat := (lv.map Prod.snd).sum

theorem lookup_isSome_iff_mem : (lv.lookup p).isSome ↔ p ∈ lv.map Prod.fst := by
  rw [List.lookup_isSome_iff]
  simp only [List.mem_map, beq_iff_eq]
  constructor
  · rintro ⟨e, he, rfl⟩
    exact ⟨e, he, rfl⟩
  · rintro ⟨e, he, rfl⟩
    exact ⟨e, he, rfl⟩

theorem lookup_eq_some_level (hp : p ∈ lv.map Prod.fst) : lv.lookup p = some (lv.level p) := by
  obtain ⟨l, hl⟩ := Option.isSome_iff_exists.mp (lookup_isSome_iff_mem.mpr hp)
  simp [level, hl]

theorem level_eq_of_lookup (h : lv.lookup p = some l) : lv.level p = l := by
  simp [level, h]

theorem level_of_not_mem (hp : p ∉ lv.map Prod.fst) : lv.level p = 0 := by
  have : lv.lookup p = none := by
    cases hl : lv.lookup p with
    | none => rfl
    | some _ => exact absurd (lookup_isSome_iff_mem.mp (by simp [hl])) hp
  simp [level, this]

/-- A level is one of the values of the list, or zero. -/
theorem level_mem_or_zero (lv : Levels) (p : String) :
    lv.level p ∈ lv.map Prod.snd ∨ lv.level p = 0 := by
  cases hl : lv.lookup p with
  | none => exact .inr (by simp [level, hl])
  | some l =>
      obtain ⟨l₁, l₂, rfl, -⟩ := List.lookup_eq_some_iff.mp hl
      exact .inl (by simp [level_eq_of_lookup hl])

theorem lookup_cons_eq (k : String) (v : Nat) (es : Levels) :
    ((k, v) :: es).lookup p = if p = k then some v else es.lookup p := by
  by_cases hp : p = k
  · subst hp
    simp
  · simp [List.lookup_cons, beq_false_of_ne hp, hp]

theorem level_cons (k : String) (v : Nat) (es : Levels) :
    Levels.level ((k, v) :: es) p = if p = k then v else es.level p := by
  by_cases hp : p = k <;> simp [level, lookup_cons_eq, hp]

theorem raise_cons (k : String) (v : Nat) (es : Levels) :
    Levels.raise ((k, v) :: es) h r = (if k = h then (h, r) else (k, v)) :: es.raise h r := by
  simp [raise]

/-- Raising a predicate that has no level changes nothing. -/
theorem raise_of_not_mem (hh : h ∉ lv.map Prod.fst) : lv.raise h r = lv := by
  induction lv with
  | nil => rfl
  | cons e es ih =>
      obtain ⟨k, v⟩ := e
      simp only [List.map_cons, List.mem_cons, not_or] at hh
      rw [raise_cons, if_neg (Ne.symm hh.1), ih hh.2]

@[simp] theorem keys_raise : (lv.raise h r).map Prod.fst = lv.map Prod.fst := by
  induction lv with
  | nil => rfl
  | cons e es ih =>
      obtain ⟨k, v⟩ := e
      rw [raise_cons, List.map_cons, List.map_cons, ih]
      by_cases hk : k = h <;> simp [hk]

theorem level_raise_self (hh : h ∈ lv.map Prod.fst) : (lv.raise h r).level h = r := by
  induction lv with
  | nil => simp at hh
  | cons e es ih =>
      obtain ⟨k, v⟩ := e
      rw [raise_cons]
      by_cases hk : k = h
      · simp [hk, level_cons]
      · have hh' : h ∈ es.map Prod.fst := by simpa [Ne.symm hk] using hh
        simp [hk, level_cons, Ne.symm hk, ih hh']

theorem level_raise_of_ne (hp : p ≠ h) : (lv.raise h r).level p = lv.level p := by
  induction lv with
  | nil => rfl
  | cons e es ih =>
      obtain ⟨k, v⟩ := e
      rw [raise_cons]
      by_cases hk : k = h
      · subst hk
        simp [level_cons, hp, ih]
      · simp [hk, level_cons, ih]

theorem mem_raise {e : String × Nat} (he : e ∈ lv.raise h r) : e ∈ lv ∨ e = (h, r) := by
  simp only [raise, List.mem_map] at he
  obtain ⟨e', he', rfl⟩ := he
  split
  · exact .inr rfl
  · exact .inl he'

/-- Raising the level of one of distinct predicates adds the rise to the sum of the levels. -/
theorem total_raise (hnd : (lv.map Prod.fst).Nodup) (hh : h ∈ lv.map Prod.fst) :
    (lv.raise h r).total + lv.level h = lv.total + r := by
  induction lv with
  | nil => simp at hh
  | cons e es ih =>
      obtain ⟨k, v⟩ := e
      simp only [List.map_cons, List.nodup_cons, List.mem_cons] at hnd hh
      rw [raise_cons, level_cons]
      by_cases hk : k = h
      · subst hk
        -- the other entries have other predicates, so only the first one changes
        rw [raise_of_not_mem hnd.1]
        simp [total]
        omega
      · have := ih hnd.2 (hh.resolve_left (Ne.symm hk))
        simp only [total, List.map_cons, List.sum_cons] at this ⊢
        simp only [hk, if_false, Ne.symm hk]
        omega

theorem total_lt_raise (hnd : (lv.map Prod.fst).Nodup) (hh : h ∈ lv.map Prod.fst)
    (hr : lv.level h < r) : lv.total < (lv.raise h r).total := by
  have := total_raise (r := r) hnd hh
  omega

theorem total_le {top : Nat} (hb : ∀ e ∈ lv, e.2 < top) : lv.total ≤ lv.length * (top - 1) := by
  induction lv with
  | nil => simp [total]
  | cons e es ih =>
      have he := hb e (by simp)
      have := ih fun e' he' => hb e' (by simp [he'])
      simp only [total, List.map_cons, List.sum_cons, List.length_cons] at this ⊢
      rw [Nat.succ_mul]
      omega

end Levels

/-! ## The levels to start from -/

section Initial

variable {t : AtomTable}

theorem initialLevels_foldl (axs : List GroundAxiom) :
    ∀ lv : Levels, (lv.map Prod.fst).Nodup → (∀ e ∈ lv, e.2 = 0) →
      let lv' := axs.foldl (fun lv ax =>
        let h := ax.head t
        if (lv.lookup h).isSome then lv else lv ++ [(h, 0)]) lv
      (lv'.map Prod.fst).Nodup ∧ (∀ e ∈ lv', e.2 = 0) ∧
        ∀ p, p ∈ lv'.map Prod.fst ↔ p ∈ lv.map Prod.fst ∨ p ∈ axs.map (·.head t) := by
  induction axs with
  | nil => intro lv hnd hz; exact ⟨hnd, hz, fun p => by simp⟩
  | cons ax axs ih =>
      intro lv hnd hz
      simp only [List.foldl_cons]
      split
      · next hs =>
          have hh := Levels.lookup_isSome_iff_mem.mp hs
          obtain ⟨h1, h2, h3⟩ := ih lv hnd hz
          refine ⟨h1, h2, fun p => ?_⟩
          rw [h3]
          simp only [List.map_cons, List.mem_cons]
          constructor
          · rintro (h | h)
            · exact .inl h
            · exact .inr (.inr h)
          · rintro (h | rfl | h)
            · exact .inl h
            · exact .inl hh
            · exact .inr h
      · next hs =>
          have hh : ax.head t ∉ lv.map Prod.fst := fun h =>
            hs (Levels.lookup_isSome_iff_mem.mpr h)
          have hnd' : ((lv ++ [(ax.head t, 0)]).map Prod.fst).Nodup := by
            rw [List.map_append, List.nodup_append]
            refine ⟨hnd, by simp, fun a ha b hb => ?_⟩
            simp only [List.map_cons, List.map_nil, List.mem_singleton] at hb
            exact fun hab => hh (by rw [← hb, ← hab]; exact ha)
          have hz' : ∀ e ∈ lv ++ [(ax.head t, 0)], e.2 = 0 := by
            intro e he
            rcases List.mem_append.mp he with he | he
            · exact hz e he
            · simp only [List.mem_singleton] at he
              rw [he]
          obtain ⟨h1, h2, h3⟩ := ih (lv ++ [(ax.head t, 0)]) hnd' hz'
          refine ⟨h1, h2, fun p => ?_⟩
          rw [h3]
          simp only [List.map_append, List.map_cons, List.map_nil, List.mem_append,
            List.mem_cons, List.not_mem_nil, or_false]
          constructor
          · rintro ((h | h) | h)
            · exact .inl h
            · exact .inr (.inl h)
            · exact .inr (.inr h)
          · rintro (h | h | h)
            · exact .inl (.inl h)
            · exact .inl (.inr h)
            · exact .inr h

/-- The levels to start from: every derived predicate once, at level zero. -/
theorem initialLevels_spec (axs : List GroundAxiom) :
    ((initialLevels t axs).map Prod.fst).Nodup ∧ (∀ e ∈ initialLevels t axs, e.2 = 0) ∧
      ∀ p, p ∈ (initialLevels t axs).map Prod.fst ↔ Derived t axs p := by
  obtain ⟨h1, h2, h3⟩ := initialLevels_foldl (t := t) axs [] List.nodup_nil (by simp)
  unfold initialLevels
  exact ⟨h1, h2, fun p => (h3 p).trans (by simp [Derived])⟩

end Initial

/-! ## What a rule asks for -/

/-- The level a rule asks for its head is at most `B` exactly when the head's level and what
each literal on a derived predicate asks (its level, one more for a negative literal) are. -/
theorem requiredLevel_le_iff {t : AtomTable} {lv : Levels} {ax : GroundAxiom} {B : Nat} :
    requiredLevel t lv ax ≤ B ↔ lv.level (ax.head t) ≤ B ∧
      ∀ a positive, (a, positive) ∈ ax.guard.literals → ∀ l, lv.lookup (t.get a).pred = some l →
        (if positive then l else l + 1) ≤ B := by
  unfold requiredLevel
  generalize lv.level (ax.head t) = init
  induction ax.guard.literals generalizing init with
  | nil => simp
  | cons lit lits ih =>
      obtain ⟨a, positive⟩ := lit
      simp only [List.foldl_cons, List.mem_cons, Prod.mk.injEq]
      cases hl : lv.lookup (t.get a).pred with
      | none =>
          rw [ih]
          constructor
          · rintro ⟨hi, hall⟩
            refine ⟨hi, fun a' pos' hmem l' hl' => ?_⟩
            rcases hmem with ⟨rfl, rfl⟩ | hmem
            · simp [hl] at hl'
            · exact hall a' pos' hmem l' hl'
          · rintro ⟨hi, hall⟩
            exact ⟨hi, fun a' pos' hmem l' hl' => hall a' pos' (.inr hmem) l' hl'⟩
      | some l =>
          rw [ih, Nat.max_le]
          constructor
          · rintro ⟨⟨hi, hd⟩, hall⟩
            refine ⟨hi, fun a' pos' hmem l' hl' => ?_⟩
            rcases hmem with ⟨rfl, rfl⟩ | hmem
            · rw [hl] at hl'
              cases hl'
              exact hd
            · exact hall a' pos' hmem l' hl'
          · rintro ⟨hi, hall⟩
            exact ⟨⟨hi, hall a positive (.inl ⟨rfl, rfl⟩) l hl⟩,
              fun a' pos' hmem l' hl' => hall a' pos' (.inr hmem) l' hl'⟩

/-! ## Rounds -/

/-- A step of a round: the rule asks for a level of its head, which is raised when the rule asks
for more, unless the rule asks for the bound or more. -/
def raiseStep (t : AtomTable) (top : Nat) (acc : Levels × Bool) (ax : GroundAxiom) :
    Except GroundingError (Levels × Bool) :=
  let h := ax.head t
  let r := requiredLevel t acc.1 ax
  if r > acc.1.level h then
    if r ≥ top then throw (.notStratifiable h) else pure (acc.1.raise h r, true)
  else pure acc

theorem raiseLevels_eq_foldlM (t : AtomTable) (top : Nat) (lv : Levels) (axs : List GroundAxiom) :
    raiseLevels t top lv axs = axs.foldlM (raiseStep t top) (lv, false) := rfl

/-- What the rounds keep: the levels are those of the derived predicates, below the bound, no
higher than the levels of any stratification, and each one counts the negative edges of a walk
that ends at its predicate and starts at a derived one. -/
structure LevelsInv (t : AtomTable) (axs : List GroundAxiom) (top : Nat) (lv : Levels) : Prop where
  keys : lv.map Prod.fst = (initialLevels t axs).map Prod.fst
  bounded : ∀ e ∈ lv, e.2 < top
  least : ∀ L, Stratifies t axs L → ∀ p, lv.level p ≤ L p
  justified : ∀ p, Derived t axs p →
    ∃ q k, Derived t axs q ∧ lv.level p ≤ k ∧ DependencyWalk t axs q p k

namespace LevelsInv

variable {t : AtomTable} {axs : List GroundAxiom} {top : Nat} {lv : Levels}

theorem mem_keys_iff (hi : LevelsInv t axs top lv) {p : String} :
    p ∈ lv.map Prod.fst ↔ Derived t axs p := by
  rw [hi.keys]
  exact (initialLevels_spec axs).2.2 p

theorem nodup_keys (hi : LevelsInv t axs top lv) : (lv.map Prod.fst).Nodup := by
  rw [hi.keys]
  exact (initialLevels_spec axs).1

theorem length_eq (hi : LevelsInv t axs top lv) : lv.length = (initialLevels t axs).length := by
  simpa using congrArg List.length hi.keys

theorem derived_of_lookup (hi : LevelsInv t axs top lv) {p : String} {l : Nat}
    (hl : lv.lookup p = some l) : Derived t axs p :=
  hi.mem_keys_iff.mp (Levels.lookup_isSome_iff_mem.mp (by simp [hl]))

/-- The levels to start from are kept. -/
theorem initial (htop : 0 < top ∨ axs = []) : LevelsInv t axs top (initialLevels t axs) where
  keys := rfl
  bounded e he := by
    have hz := (initialLevels_spec axs).2.1 e he
    rcases htop with htop | rfl
    · omega
    · simp [initialLevels] at he
  least L _ p := by
    rcases (initialLevels t axs).level_mem_or_zero p with hp | hp
    · obtain ⟨e, he, hpe⟩ := List.mem_map.mp hp
      have := (initialLevels_spec axs).2.1 e he
      omega
    · omega
  justified p hp := ⟨p, 0, hp, by
    rcases (initialLevels t axs).level_mem_or_zero p with h | h
    · obtain ⟨e, he, hpe⟩ := List.mem_map.mp h
      have := (initialLevels_spec axs).2.1 e he
      omega
    · omega, .refl p⟩

/-- A stratification allows every level a rule asks for. -/
theorem requiredLevel_le (hi : LevelsInv t axs top lv) {ax : GroundAxiom} (hax : ax ∈ axs)
    {L : String → Nat} (hL : Stratifies t axs L) : requiredLevel t lv ax ≤ L (ax.head t) := by
  refine requiredLevel_le_iff.mpr ⟨hi.least L hL _, fun a positive hlit l hl => ?_⟩
  have hp := hi.derived_of_lookup hl
  have hedge := hL _ _ positive ⟨hp, ax, hax, rfl, a, hlit, rfl⟩
  have hlp : lv.level (t.get a).pred = l := Levels.level_eq_of_lookup hl
  have := hi.least L hL (t.get a).pred
  cases positive <;> simp at hedge ⊢ <;> omega

/-- A rule that asks for more than its head's level asks for it through one literal, and a walk
with that many negative edges ends at its head. -/
theorem walk_of_lt_requiredLevel (hi : LevelsInv t axs top lv) {ax : GroundAxiom}
    (hax : ax ∈ axs) (hlt : lv.level (ax.head t) < requiredLevel t lv ax) :
    ∃ q k, Derived t axs q ∧ requiredLevel t lv ax ≤ k ∧ DependencyWalk t axs q (ax.head t) k := by
  have hnot : ¬ requiredLevel t lv ax ≤ requiredLevel t lv ax - 1 := by omega
  rw [requiredLevel_le_iff] at hnot
  obtain ⟨a, positive, hlit, l, hl, hask⟩ : ∃ a positive, (a, positive) ∈ ax.guard.literals ∧
      ∃ l, lv.lookup (t.get a).pred = some l ∧
        requiredLevel t lv ax - 1 < (if positive then l else l + 1) := by
    by_contra hno
    simp only [not_exists, not_and, Nat.not_lt] at hno
    exact hnot ⟨by omega, hno⟩
  have hp := hi.derived_of_lookup hl
  obtain ⟨q, k, hq, hk, w⟩ := hi.justified _ hp
  have hlp : lv.level (t.get a).pred = l := Levels.level_eq_of_lookup hl
  refine ⟨q, _, hq, ?_, w.step ⟨hp, ax, hax, rfl, a, hlit, rfl⟩⟩
  cases positive <;> simp at hask ⊢ <;> omega

/-- Raising a head to the level its rule asks for, below the bound, keeps the invariant. -/
theorem raise (hi : LevelsInv t axs top lv) {ax : GroundAxiom} (hax : ax ∈ axs)
    (hlt : lv.level (ax.head t) < requiredLevel t lv ax) (htop : requiredLevel t lv ax < top) :
    LevelsInv t axs top (lv.raise (ax.head t) (requiredLevel t lv ax)) where
  keys := by rw [Levels.keys_raise, hi.keys]
  bounded e he := by
    rcases Levels.mem_raise he with he | rfl
    · exact hi.bounded e he
    · exact htop
  least L hL p := by
    by_cases hp : p = ax.head t
    · subst hp
      rw [Levels.level_raise_self (hi.mem_keys_iff.mpr (List.mem_map_of_mem hax))]
      exact hi.requiredLevel_le hax hL
    · rw [Levels.level_raise_of_ne hp]
      exact hi.least L hL p
  justified p hp := by
    by_cases hph : p = ax.head t
    · subst hph
      rw [Levels.level_raise_self (hi.mem_keys_iff.mpr (List.mem_map_of_mem hax))]
      exact hi.walk_of_lt_requiredLevel hax hlt
    · rw [Levels.level_raise_of_ne hph]
      exact hi.justified p hp

/-- Levels at which no rule asks for more stratify the rules. -/
theorem stratifies_of_fixed (hi : LevelsInv t axs top lv)
    (hfix : ∀ ax ∈ axs, requiredLevel t lv ax ≤ lv.level (ax.head t)) :
    Stratifies t axs lv.level := by
  rintro p h positive ⟨hp, ax, hax, rfl, a, hlit, rfl⟩
  have hl := Levels.lookup_eq_some_level (hi.mem_keys_iff.mpr hp)
  have := (requiredLevel_le_iff.mp (hfix ax hax)).2 a positive hlit _ hl
  cases positive <;> simp at this ⊢ <;> omega

end LevelsInv

section Rounds

variable {t : AtomTable} {axs : List GroundAxiom} {top : Nat}

/-- A walk from a derived predicate to `h` with at least `top` negative edges. -/
def LongWalkTo (t : AtomTable) (axs : List GroundAxiom) (top : Nat) (h : String) : Prop :=
  ∃ q k, Derived t axs q ∧ top ≤ k ∧ DependencyWalk t axs q h k

/-- One step of a round keeps the invariant; it either changes nothing, the rule asking for no
more than its head's level, or raises the sum of the levels. -/
theorem raiseStep_ok {lv lv' : Levels} {ch ch' : Bool} {ax : GroundAxiom} (hax : ax ∈ axs)
    (hi : LevelsInv t axs top lv) (h : raiseStep t top (lv, ch) ax = .ok (lv', ch')) :
    LevelsInv t axs top lv' ∧
      ((lv' = lv ∧ ch' = ch ∧ requiredLevel t lv ax ≤ lv.level (ax.head t)) ∨
        (ch' = true ∧ lv.total < lv'.total)) := by
  unfold raiseStep at h
  simp only at h
  split at h
  · next hlt =>
      split at h
      · exact absurd h except_throw_ne_ok
      · next htop =>
          rw [except_pure_eq_ok, Prod.mk.injEq] at h
          obtain ⟨rfl, rfl⟩ := h
          refine ⟨hi.raise hax hlt (by omega), .inr ⟨rfl, ?_⟩⟩
          exact Levels.total_lt_raise hi.nodup_keys
            (hi.mem_keys_iff.mpr (List.mem_map_of_mem hax)) hlt
  · next hle =>
      rw [except_pure_eq_ok, Prod.mk.injEq] at h
      obtain ⟨rfl, rfl⟩ := h
      exact ⟨hi, .inl ⟨rfl, rfl, by omega⟩⟩

/-- A step fails only on a rule asking for the bound, and a long walk then ends at its head. -/
theorem raiseStep_error {lv : Levels} {ch : Bool} {ax : GroundAxiom} {e : GroundingError}
    (hax : ax ∈ axs) (hi : LevelsInv t axs top lv) (h : raiseStep t top (lv, ch) ax = .error e) :
    e = .notStratifiable (ax.head t) ∧ LongWalkTo t axs top (ax.head t) := by
  unfold raiseStep at h
  simp only at h
  split at h
  · next hlt =>
      split at h
      · next htop =>
          refine ⟨(Except.error.inj h).symm, ?_⟩
          obtain ⟨q, k, hq, hk, w⟩ := hi.walk_of_lt_requiredLevel hax hlt
          exact ⟨q, k, hq, by omega, w⟩
      · exact absurd h except_pure_ne_error
  · exact absurd h except_pure_ne_error

/-- A round keeps the invariant, never lowers the sum of the levels, and raises it when it
reports a change; a round that reports none changed nothing, every rule asking for no more than
its head's level. -/
theorem raiseRound_ok {xs : List GroundAxiom} (hxs : ∀ ax ∈ xs, ax ∈ axs) :
    ∀ {lv lv' : Levels} {ch ch' : Bool}, LevelsInv t axs top lv →
      xs.foldlM (raiseStep t top) (lv, ch) = .ok (lv', ch') →
      LevelsInv t axs top lv' ∧ lv.total ≤ lv'.total ∧
        (ch' = true → ch = true ∨ lv.total < lv'.total) ∧
        (ch' = false → ch = false ∧ lv' = lv ∧
          ∀ ax ∈ xs, requiredLevel t lv ax ≤ lv.level (ax.head t)) := by
  induction xs with
  | nil =>
      intro lv lv' ch ch' hi h
      rw [List.foldlM_nil, except_pure_eq_ok, Prod.mk.injEq] at h
      obtain ⟨rfl, rfl⟩ := h
      exact ⟨hi, Nat.le_refl _, fun h => .inl h, fun h => ⟨h, rfl, by simp⟩⟩
  | cons ax xs ih =>
      intro lv lv' ch ch' hi h
      rw [List.foldlM_cons, except_bind_eq_ok] at h
      obtain ⟨⟨lv₁, ch₁⟩, h₁, h₂⟩ := h
      have hax : ax ∈ axs := hxs ax (by simp)
      obtain ⟨hi₁, hstep⟩ := raiseStep_ok hax hi h₁
      obtain ⟨hi', hle, hup, hsame⟩ := ih (fun b hb => hxs b (by simp [hb])) hi₁ h₂
      refine ⟨hi', ?_, ?_, ?_⟩
      · rcases hstep with ⟨rfl, -, -⟩ | ⟨-, hlt⟩
        · exact hle
        · omega
      · intro hch
        rcases hstep with ⟨rfl, rfl, -⟩ | ⟨-, hlt⟩
        · exact hup hch
        · exact .inr (by omega)
      · intro hch
        obtain ⟨rfl, rfl, hfix⟩ := hsame hch
        rcases hstep with ⟨rfl, rfl, hask⟩ | ⟨hc, -⟩
        · exact ⟨rfl, rfl, by simpa [hask] using hfix⟩
        · cases hc

/-- A round fails only on a rule asking for the bound, with a long walk to its head. -/
theorem raiseRound_error {xs : List GroundAxiom} (hxs : ∀ ax ∈ xs, ax ∈ axs) :
    ∀ {lv : Levels} {ch : Bool} {e : GroundingError}, LevelsInv t axs top lv →
      xs.foldlM (raiseStep t top) (lv, ch) = .error e →
      ∃ h, e = .notStratifiable h ∧ LongWalkTo t axs top h := by
  induction xs with
  | nil =>
      intro lv ch e _ h
      exact absurd h except_pure_ne_error
  | cons ax xs ih =>
      intro lv ch e hi h
      rw [List.foldlM_cons, except_bind_eq_error] at h
      have hax : ax ∈ axs := hxs ax (by simp)
      rcases h with h | ⟨⟨lv₁, ch₁⟩, h₁, h₂⟩
      · exact ⟨_, raiseStep_error hax hi h⟩
      · exact ih (fun b hb => hxs b (by simp [hb])) (raiseStep_ok hax hi h₁).1 h₂

/-- The rounds end, before their fuel runs out, at levels where no rule asks for more, or fail
on a predicate at the end of a long walk. The fuel needed is one round more than the sum of the
levels can still rise. -/
theorem settleLevels_outcome :
    ∀ (fuel : Nat) (lv : Levels), LevelsInv t axs top lv →
      lv.length * (top - 1) < lv.total + fuel →
      match settleLevels t top axs fuel lv with
      | .ok lv' => LevelsInv t axs top lv' ∧
          ∀ ax ∈ axs, requiredLevel t lv' ax ≤ lv'.level (ax.head t)
      | .error e => ∃ h, e = .notStratifiable h ∧ LongWalkTo t axs top h
  | 0, lv, hi, hfuel => by
      -- the sum of the levels never exceeds the bound, so some fuel is always left
      have := Levels.total_le hi.bounded
      omega
  | fuel + 1, lv, hi, hfuel => by
      simp only [settleLevels]
      cases hround : raiseLevels t top lv axs with
      | error e =>
          exact raiseRound_error (fun ax hax => hax) hi (by rwa [raiseLevels_eq_foldlM] at hround)
      | ok res =>
          obtain ⟨lv₁, ch⟩ := res
          rw [raiseLevels_eq_foldlM] at hround
          obtain ⟨hi₁, hle, hup, hsame⟩ := raiseRound_ok (fun ax hax => hax) hi hround
          cases ch with
          | true =>
              have hlt := (hup rfl).resolve_left Bool.false_ne_true
              have hlen : lv₁.length = lv.length := by rw [hi₁.length_eq, hi.length_eq]
              exact settleLevels_outcome fuel lv₁ hi₁ (by rw [hlen]; omega)
          | false =>
              obtain ⟨-, rfl, hfix⟩ := hsame rfl
              exact ⟨hi, hfix⟩

end Rounds

/-! ## Sorting by level and the strata -/

section Sorted

variable {t : AtomTable} {axs : List GroundAxiom}

/-- `sorted` lists the rules by the levels `L` of their heads, keeping their order within a
level. -/
def SortedByLevel (t : AtomTable) (L : String → Nat) (axs sorted : List GroundAxiom) : Prop :=
  sorted.Perm axs ∧ sorted.Pairwise (fun a b => L (a.head t) ≤ L (b.head t)) ∧
    ∀ k, sorted.filter (fun ax => L (ax.head t) = k) = axs.filter (fun ax => L (ax.head t) = k)

/-- `ends` gives the end of each stratum: one entry per level up to the highest level of a rule,
the number of rules at that level or below. -/
def StrataEnds (t : AtomTable) (L : String → Nat) (axs : List GroundAxiom) (ends : List Nat) :
    Prop :=
  ends.Pairwise (· ≤ ·) ∧ (∀ ax ∈ axs, L (ax.head t) < ends.length) ∧
    (∀ i (hi : i < ends.length), ends[i] = (axs.filter fun ax => L (ax.head t) ≤ i).length) ∧
    (axs = [] → ends = []) ∧ (axs ≠ [] → ends.getLast? = some axs.length)

/-- Merge sort by level is a stable sort by level. -/
theorem sortedByLevel_mergeSort (L : String → Nat) :
    SortedByLevel t L axs (axs.mergeSort fun a b => decide (L (a.head t) ≤ L (b.head t))) := by
  set le := fun a b : GroundAxiom => decide (L (a.head t) ≤ L (b.head t))
  have trans : ∀ a b c, le a b → le b c → le a c := by
    intro a b c
    simp only [le, decide_eq_true_eq]
    omega
  have total : ∀ a b, (le a b || le b a) := by
    intro a b
    simp only [le, Bool.or_eq_true, decide_eq_true_eq]
    omega
  have hperm := List.mergeSort_perm axs le
  refine ⟨hperm, (List.pairwise_mergeSort trans total axs).imp (by simp [le]), fun k => ?_⟩
  set P := fun ax : GroundAxiom => decide (L (ax.head t) = k)
  -- the rules of level `k` are sorted already, so merge sort keeps them in input order
  have hsorted : (axs.filter P).Pairwise fun a b => le a b := by
    refine List.pairwise_of_forall_mem_list fun a ha b hb => ?_
    simp only [P, List.mem_filter, decide_eq_true_eq] at ha hb
    simp [le, ha.2, hb.2]
  have hsub := (List.sublist_mergeSort trans total hsorted List.filter_sublist).filter P
  rw [List.filter_eq_self.mpr fun a ha => (List.mem_filter.mp ha).2] at hsub
  exact (hsub.eq_of_length (hperm.filter P).length_eq.symm).symm

theorem le_foldl_max {x : Nat} : ∀ {l : List Nat} {init : Nat}, x ∈ l ∨ x ≤ init →
    x ≤ l.foldl max init
  | [], _, h => by simpa using h
  | y :: l, init, h => by
      rw [List.foldl_cons]
      refine le_foldl_max ?_
      rcases h with h | h
      · rcases List.mem_cons.mp h with rfl | h
        · exact .inr (Nat.le_max_right _ _)
        · exact .inl h
      · exact .inr (Nat.le_trans h (Nat.le_max_left _ _))

/-- The ends of the strata of levels that give each rule's head a level. -/
theorem strataEnds_of_levels {lv : Levels} (hkeys : ∀ p, p ∈ lv.map Prod.fst ↔ Derived t axs p)
    {sorted : List GroundAxiom} (hperm : sorted.Perm axs) :
    StrataEnds t lv.level axs ((List.range
      (if lv.isEmpty then 0 else (lv.map (·.2)).foldl max 0 + 1)).map fun i =>
        (sorted.filter fun ax => lv.level (ax.head t) ≤ i).length) := by
  set top := (lv.map (·.2)).foldl max 0
  have hcount : ∀ i, (sorted.filter fun ax => lv.level (ax.head t) ≤ i).length =
      (axs.filter fun ax => lv.level (ax.head t) ≤ i).length := fun i =>
    (hperm.filter _).length_eq
  have hle : ∀ p, lv.level p ≤ top := fun p => le_foldl_max (lv.level_mem_or_zero p |>.imp id
    fun h => by omega)
  have hne : axs ≠ [] ↔ lv ≠ [] := by
    constructor
    · intro h hlv
      obtain ⟨ax, hax⟩ := List.exists_mem_of_ne_nil axs h
      have := (hkeys (ax.head t)).mpr (List.mem_map_of_mem hax)
      simp [hlv] at this
    · intro h hax
      obtain ⟨e, he⟩ := List.exists_mem_of_ne_nil lv h
      have := (hkeys e.1).mp (List.mem_map_of_mem he)
      simp [Derived, hax] at this
  simp only [hcount]
  refine ⟨?_, ?_, ?_, ?_, ?_⟩
  · refine List.pairwise_map.mpr (List.pairwise_lt_range.imp fun hij => ?_)
    exact (List.monotone_filter_right axs fun ax h => by simp at h ⊢; omega).length_le
  · intro ax hax
    have hlv : lv ≠ [] := hne.mp (List.ne_nil_of_mem hax)
    simp [hlv, Nat.lt_succ_of_le (hle _)]
  · intro i hi
    simp
  · intro hax
    have hlv : lv = [] := by
      by_contra hlv
      exact hne.mpr hlv hax
    simp [hlv]
  · intro hax
    have hlv : lv ≠ [] := hne.mp hax
    have hall : (axs.filter fun ax => lv.level (ax.head t) ≤ top) = axs :=
      List.filter_eq_self.mpr fun ax _ => by simpa using hle _
    simp [hlv, List.getLast?_map, List.getLast?_range, hall]

end Sorted

/-! ## Stratification -/

section Stratify

variable {t : AtomTable} {axs : List GroundAxiom}

theorem stratify_eq_error_iff {e : GroundingError} :
    stratify t axs = .error e ↔ settleLevels t (initialLevels t axs).length axs
      ((initialLevels t axs).length * (initialLevels t axs).length + 1) (initialLevels t axs) =
        .error e := by
  unfold stratify
  cases hs : settleLevels t (initialLevels t axs).length axs
    ((initialLevels t axs).length * (initialLevels t axs).length + 1) (initialLevels t axs) <;>
    simp [hs, bind, Except.bind, pure, Except.pure]

theorem stratify_eq_ok {sorted : List GroundAxiom} {ends : List Nat}
    (h : stratify t axs = .ok (sorted, ends)) :
    ∃ lv, settleLevels t (initialLevels t axs).length axs
      ((initialLevels t axs).length * (initialLevels t axs).length + 1) (initialLevels t axs) =
        .ok lv ∧
      sorted = axs.mergeSort (fun a b => decide (lv.level (a.head t) ≤ lv.level (b.head t))) ∧
      ends = (List.range (if lv.isEmpty then 0 else (lv.map (·.2)).foldl max 0 + 1)).map
        fun i => (sorted.filter fun ax => lv.level (ax.head t) ≤ i).length := by
  unfold stratify at h
  cases hs : settleLevels t (initialLevels t axs).length axs
    ((initialLevels t axs).length * (initialLevels t axs).length + 1) (initialLevels t axs) with
  | error e => simp [hs, bind, Except.bind] at h
  | ok lv =>
      simp only [hs, bind, Except.bind, pure, Except.pure, Except.ok.injEq, Prod.mk.injEq] at h
      obtain ⟨rfl, rfl⟩ := h
      exact ⟨lv, rfl, rfl, rfl⟩

/-- The rounds of `stratify` start from levels that keep the invariant, with enough fuel. -/
theorem stratify_settles :
    let n := (initialLevels t axs).length
    match settleLevels t n axs (n * n + 1) (initialLevels t axs) with
    | .ok lv' => LevelsInv t axs n lv' ∧
        ∀ ax ∈ axs, requiredLevel t lv' ax ≤ lv'.level (ax.head t)
    | .error e => ∃ h, e = .notStratifiable h ∧ LongWalkTo t axs n h := by
  intro n
  have hinit : LevelsInv t axs n (initialLevels t axs) := by
    refine LevelsInv.initial ?_
    by_cases hax : axs = []
    · exact .inr hax
    · obtain ⟨ax, hax⟩ := List.exists_mem_of_ne_nil axs hax
      have := ((initialLevels_spec axs).2.2 (ax.head t)).mpr (List.mem_map_of_mem hax)
      exact .inl (List.length_pos_of_mem (List.mem_map.mp this).choose_spec.1)
  refine settleLevels_outcome _ _ hinit ?_
  have : n * (n - 1) ≤ n * n := Nat.mul_le_mul_left n (Nat.sub_le n 1)
  show n * (n - 1) < _ + (n * n + 1)
  omega

/-- Stratification is exact. It fails exactly when a derived predicate depends negatively on
itself, and then names a predicate that such a cycle leads to. Otherwise the levels are the least
that stratify the rules, so every positive literal on a derived predicate is at the level of the
rule's head or below and every negative one strictly below; the rules come sorted stably by the
level of their head, and the strata end after the rules of each level or below, the last one
after all rules. -/
theorem stratify_exact (t : AtomTable) (axs : List GroundAxiom) :
    ((∃ e, stratify t axs = .error e) ↔ NegativeCycle t axs) ∧
    (∀ e, stratify t axs = .error e →
      ∃ h, e = .notStratifiable h ∧ AfterNegativeCycle t axs h) ∧
    ∀ sorted ends, stratify t axs = .ok (sorted, ends) →
      ∃ L, LeastStratification t axs L ∧ SortedByLevel t L axs sorted ∧
        StrataEnds t L axs ends := by
  have hsettle := @stratify_settles t axs
  simp only at hsettle
  have herror : ∀ e, stratify t axs = .error e →
      ∃ h, e = .notStratifiable h ∧ AfterNegativeCycle t axs h := by
    intro e he
    rw [stratify_eq_error_iff] at he
    rw [he] at hsettle
    obtain ⟨h, rfl, q, k, hq, hk, w⟩ := hsettle
    have hK : ∀ x, Derived t axs x → x ∈ (initialLevels t axs).map Prod.fst :=
      fun x hx => ((initialLevels_spec axs).2.2 x).mpr hx
    exact ⟨h, rfl, w.afterNegativeCycle_of_long hK hq (by simpa using hk)⟩
  have hok : ∀ sorted ends, stratify t axs = .ok (sorted, ends) →
      ∃ L, LeastStratification t axs L ∧ SortedByLevel t L axs sorted ∧
        StrataEnds t L axs ends := by
    intro sorted ends h
    obtain ⟨lv, hs, rfl, rfl⟩ := stratify_eq_ok h
    rw [hs] at hsettle
    obtain ⟨hi, hfix⟩ := hsettle
    refine ⟨lv.level, ⟨hi.stratifies_of_fixed hfix, hi.least⟩, sortedByLevel_mergeSort _, ?_⟩
    exact strataEnds_of_levels (fun p => hi.mem_keys_iff) (List.mergeSort_perm _ _)
  refine ⟨⟨fun ⟨e, he⟩ => ?_, fun hcycle => ?_⟩, herror, hok⟩
  · obtain ⟨h, -, hafter⟩ := herror e he
    exact hafter.negativeCycle
  · cases hs : stratify t axs with
    | error e => exact ⟨e, rfl⟩
    | ok res =>
        obtain ⟨L, ⟨hL, -⟩, -⟩ := hok res.1 res.2 hs
        exact absurd hcycle (not_negativeCycle_of_stratifies hL)

/-- Rules `d3 ← d2`, `d2 ← ¬d1`, `d1 ← p` and `d1 ← d1, q`: `d2` uses `d1` negatively, so `d1`
is at level zero with its two rules and the other two at level one. -/
example : stratify ⟨[⟨"d3", []⟩, ⟨"d2", []⟩, ⟨"d1", []⟩, ⟨"p", []⟩, ⟨"q", []⟩]⟩
    [⟨0, { positive := [1] }⟩, ⟨1, { negative := [2] }⟩, ⟨2, { positive := [3] }⟩,
      ⟨2, { positive := [2, 4] }⟩] =
    .ok ([⟨2, { positive := [3] }⟩, ⟨2, { positive := [2, 4] }⟩, ⟨0, { positive := [1] }⟩,
      ⟨1, { negative := [2] }⟩], [2, 4]) := by
  cbv

/-- Rules `d1 ← d2` and `d2 ← p, ¬d1` form a negative cycle. -/
example : stratify ⟨[⟨"d1", []⟩, ⟨"d2", []⟩, ⟨"p", []⟩]⟩
    [⟨0, { positive := [1] }⟩, ⟨1, { positive := [2], negative := [0] }⟩] =
    .error (.notStratifiable "d2") := by
  cbv

end Stratify

end Pddl
