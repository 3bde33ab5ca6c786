import Pddl.Proofs.Ground.Runs
import Pddl.Search.Forward
/-!
# Widths of states

A state is widened only when an atom beyond its row is made true, and the atoms a step can make
true are those of `madeTrue`. So every state that a run reaches from the initial state is at most
`widthBound` wide (`Runs.width_le`).

States of bounded width are few: a state of width at most `w` is fixed by its width and its
first `w` truth values, so a list of distinct such states has at most `(w + 1) * 2 ^ w` members
(`length_le_of_width_le`). This is what bounds the rounds of the search.
-/

namespace Pddl

namespace State

-- Atom numbers are `Nat` under the name `AtomId`, which `omega` does not look through: the
-- bounds below take atoms as `Nat`.

/-- Giving an atom below `w` a value keeps a state within width `w`. -/
theorem width_setTo_le {w : Nat} {s : State} (hs : s.width ≤ w) {a : Nat} (ha : a < w)
    (v : Bool) : (s.setTo a v).width ≤ w := by
  unfold setTo
  unfold width at hs ⊢
  split
  · simpa using hs
  · split
    · simp only [Array.set!_eq_setIfInBounds, Array.size_setIfInBounds, Array.size_append,
        Array.size_replicate]
      omega
    · exact hs

@[simp] theorem width_del (s : State) (a : AtomId) : (s.del a).width = s.width := by
  unfold del setTo width
  split
  · simp
  · simp

theorem width_foldl_del (l : List AtomId) (s : State) : (l.foldl del s).width = s.width := by
  induction l generalizing s with
  | nil => rfl
  | cons a l ih => rw [List.foldl_cons, ih, width_del]

theorem width_foldl_add_le {w : Nat} {l : List Nat} (hl : ∀ a ∈ l, a < w) {s : State}
    (hs : s.width ≤ w) : (l.foldl add s).width ≤ w := by
  induction l generalizing s with
  | nil => exact hs
  | cons a l ih =>
      rw [List.foldl_cons]
      exact ih (fun b hb => hl b (List.mem_cons_of_mem a hb))
        (width_setTo_le hs (hl a (by simp)) true)

/-- Two states of one width that agree on every atom of their row are equal. -/
theorem ext_of_isSet {s t : State} (hw : s.width = t.width)
    (h : ∀ i < s.width, s.isSet i = t.isSet i) : s = t := by
  obtain ⟨bs⟩ := s
  obtain ⟨cs⟩ := t
  simp only [width, isSet] at hw h
  congr 1
  refine Array.ext hw fun i hi₁ hi₂ => ?_
  have := h i hi₁
  simp only [Array.getD_eq_getD_getElem?, Array.getElem?_eq_getElem hi₁,
    Array.getElem?_eq_getElem hi₂, Option.getD_some] at this
  exact this

end State

/-- A list of distinct states of width at most `w` has at most `(w + 1) * 2 ^ w` members: a
state is fixed by its width and its first `w` truth values. -/
theorem length_le_of_width_le {w : Nat} {l : List State} (hnd : l.Nodup)
    (hw : ∀ s ∈ l, s.width ≤ w) : l.length ≤ (w + 1) * 2 ^ w := by
  let code : State → Fin (w + 1) × (Fin w → Bool) := fun s =>
    (⟨min s.width w, by omega⟩, fun i => s.isSet i)
  have hinj : ∀ s ∈ l, ∀ t ∈ l, code s = code t → s = t := by
    intro s hs t ht hst
    simp only [code, Prod.mk.injEq, Fin.mk.injEq] at hst
    obtain ⟨hwidth, hbits⟩ := hst
    have hs' := hw s hs
    have ht' := hw t ht
    refine State.ext_of_isSet (by omega) fun i hi => ?_
    exact congrFun hbits ⟨i, by omega⟩
  calc l.length = (l.map code).length := (List.length_map _).symm
    _ ≤ Fintype.card (Fin (w + 1) × (Fin w → Bool)) := (hnd.map_on hinj).length_le_card
    _ = (w + 1) * 2 ^ w := by simp [Fintype.card_prod]

namespace Action

/-- An action keeps a state within width `w` when the atoms it adds are below `w`. -/
theorem width_apply_le {w : Nat} (a : Action) {s : State} (hs : s.width ≤ w)
    (hadd : ∀ x ∈ a.add ++ a.cond.flatMap (·.add), x < w) : (a.apply s).width ≤ w := by
  unfold apply
  refine State.width_foldl_add_le (fun x hx => hadd x ?_) (by rw [State.width_foldl_del]; exact hs)
  simp only [List.mem_append, List.mem_flatMap] at hx ⊢
  rcases hx with hx | ⟨c, hc, hx⟩
  · exact .inl hx
  · exact .inr ⟨c, (List.mem_filter.mp hc).1, hx⟩

end Action

/-- A round of rules whose heads are below `w` keeps a state within width `w`. -/
theorem width_fireRules_le {w : Nat} {rules : List GroundAxiom} (hrules : ∀ ax ∈ rules, ax.atom < w)
    {s : State} (hs : s.width ≤ w) : (fireRules s rules).1.width ≤ w := by
  unfold fireRules
  -- the flag carried by the fold plays no part in the width
  suffices h : ∀ acc : State × Bool, acc.1.width ≤ w → (rules.foldl fireRule acc).1.width ≤ w from
    h (s, false) hs
  induction rules with
  | nil => intro acc hacc; exact hacc
  | cons ax rules ih =>
      intro acc hacc
      have hstep : (fireRule acc ax).1.width ≤ w := by
        unfold fireRule
        split
        · exact State.width_setTo_le hacc (hrules ax (by simp)) true
        · exact hacc
      rw [List.foldl_cons]
      exact ih (fun b hb => hrules b (List.mem_cons_of_mem ax hb)) _ hstep

theorem width_saturate_le {w : Nat} {rules : List GroundAxiom} (hrules : ∀ ax ∈ rules, ax.atom < w)
    (fuel : Nat) {s : State} (hs : s.width ≤ w) : (saturate rules fuel s).width ≤ w := by
  induction fuel generalizing s with
  | zero => exact hs
  | succ fuel ih =>
      have hround := width_fireRules_le hrules hs
      simp only [saturate]
      split
      · exact ih hround
      · exact hround

/-- Every rule of a stratum is one of the rules sliced. -/
theorem mem_of_mem_sliceStrata {rules : List GroundAxiom} {ends : List Nat}
    {stratum : List GroundAxiom} (h : stratum ∈ sliceStrata rules ends) :
    ∀ ax ∈ stratum, ax ∈ rules := by
  unfold sliceStrata at h
  suffices hacc : ∀ (acc : List (List GroundAxiom) × Nat), (∀ r ∈ acc.1, ∀ ax ∈ r, ax ∈ rules) →
      ∀ r ∈ (ends.foldl (fun (acc : List (List GroundAxiom) × Nat) e =>
        (acc.1 ++ [(rules.drop acc.2).take (e - acc.2)], e)) acc).1, ∀ ax ∈ r, ax ∈ rules from
    hacc ([], 0) (by simp) stratum h
  clear h
  induction ends with
  | nil => intro acc hacc; exact hacc
  | cons e ends ih =>
      intro acc hacc
      rw [List.foldl_cons]
      apply ih
      intro r hr ax hax
      rcases List.mem_append.mp hr with hr | hr
      · exact hacc r hr ax hax
      · rw [List.mem_singleton.mp hr] at hax
        exact List.mem_of_mem_drop (List.mem_of_mem_take hax)

namespace GroundProblem

/-- Recomputing the derived atoms keeps a state within width `w` when the heads of the rules
are below `w`. -/
theorem width_close_le {w : Nat} (gp : GroundProblem) (haxioms : ∀ ax ∈ gp.axioms, ax.atom < w)
    {s : State} (hs : s.width ≤ w) : (gp.close s).width ≤ w := by
  unfold close
  split
  · exact hs
  · dsimp only
    have hcleared := State.width_foldl_del (gp.axioms.map (·.atom)) s
    rw [List.foldl_map] at hcleared
    -- the strata are taken one after the other, each keeping the bound
    suffices h : ∀ (strata : List (List GroundAxiom)), (∀ r ∈ strata, r ∈ sliceStrata gp.axioms gp.strata) →
        ∀ t : State, t.width ≤ w →
          (strata.foldl (fun s rules => saturate rules (rules.length + 1) s) t).width ≤ w from
      h _ (fun r hr => hr) _ (by rw [hcleared]; exact hs)
    intro strata
    induction strata with
    | nil => intro _ t ht; exact ht
    | cons r strata ih =>
        intro hstrata t ht
        have hr : ∀ ax ∈ r, ax.atom < w := fun ax hax =>
          haxioms ax (mem_of_mem_sliceStrata (hstrata r (by simp)) ax hax)
        rw [List.foldl_cons]
        exact ih (fun r' hr' => hstrata r' (List.mem_cons_of_mem r hr')) _
          (width_saturate_le hr (r.length + 1) ht)

theorem le_foldr_max (l : List Nat) (b : Nat) :
    b ≤ l.foldr (fun a w => max (a + 1) w) b ∧ ∀ x ∈ l, x < l.foldr (fun a w => max (a + 1) w) b := by
  induction l with
  | nil => simp
  | cons a l ih =>
      obtain ⟨hb, hl⟩ := ih
      simp only [List.foldr_cons, List.mem_cons, forall_eq_or_imp]
      refine ⟨by omega, by omega, fun x hx => ?_⟩
      have := hl x hx
      omega

theorem init_width_le_widthBound (gp : GroundProblem) : gp.init.width ≤ gp.widthBound :=
  (le_foldr_max gp.madeTrue gp.init.width).1

theorem lt_widthBound_of_mem_madeTrue {gp : GroundProblem} {x : Nat} (hx : x ∈ gp.madeTrue) :
    x < gp.widthBound :=
  (le_foldr_max gp.madeTrue gp.init.width).2 x hx

/-- A step of the problem keeps a state within `widthBound`. -/
theorem width_successor_le {gp : GroundProblem} {a : Action} (ha : a ∈ gp.actions) {s : State}
    (hs : s.width ≤ gp.widthBound) : (gp.successor s a).width ≤ gp.widthBound := by
  have hadd : ∀ x ∈ a.add ++ a.cond.flatMap (·.add), x < gp.widthBound := by
    intro x hx
    apply lt_widthBound_of_mem_madeTrue
    simp only [madeTrue, List.mem_append, List.mem_flatMap]
    exact .inl ⟨a, ha, by simpa only [List.mem_append, List.mem_flatMap] using hx⟩
  have haxioms : ∀ ax ∈ gp.axioms, ax.atom < gp.widthBound := by
    intro ax hax
    apply lt_widthBound_of_mem_madeTrue
    simp only [madeTrue, List.mem_append, List.mem_map]
    exact .inr ⟨ax, hax, rfl⟩
  exact width_close_le gp haxioms (a.width_apply_le hs hadd)

/-- No state reachable from the initial state is wider than `widthBound`. -/
theorem Runs.width_le {gp : GroundProblem} {as : List Action} {t : State}
    (h : gp.Runs gp.init as t) : t.width ≤ gp.widthBound := by
  have hstep : ∀ s a, s.width ≤ gp.widthBound → a ∈ gp.actions → a.isApplicable s = true →
      (gp.successor s a).width ≤ gp.widthBound :=
    fun _ _ hs ha _ => width_successor_le ha hs
  exact h.preserves hstep gp.init_width_le_widthBound

end GroundProblem

end Pddl
