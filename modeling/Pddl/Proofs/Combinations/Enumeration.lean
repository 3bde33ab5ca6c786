import Pddl.Combinations.Odometer
import Mathlib
/-!
# The odometer enumerates the product

`Combinations` walks through the product of candidate lists one tuple at a time. Its state is a
tuple of indices and a status; a call of `next` loads the first tuple, advances the indices like
an odometer, or stays exhausted. This module shows that the calls of `next` return the tuples of
the product in lexicographic order of their indices, each once, and then `none` for ever.

The index tuples of the product are `indexTuples`, the product of the index ranges. What is still
to come from a state (`remaining`) is all of them when fresh, nothing when exhausted, and, when
the indices designate a tuple, the tuples after it (`tuplesAfter`), given by the same recursion
as `advance`: an odometer advance is the step from a tuple to the first one after it
(`tuplesAfter_advance`). Each call of `next` then removes the first tuple still to come
(`step_remaining`), so after `k` calls the tuples still to come are those from position `k` on
(`iterate_step_remaining`).

The count of a product saturates at the largest machine size, and so does the size hint built
from it: above that size the hint no longer bounds what is still to come
(`sizeHint_below_product`).
-/

namespace Pddl

/-- The product has as many tuples as the product of the lengths of the lists. -/
theorem length_cartesian {α : Type} :
    ∀ ls : List (List α), (cartesian ls).length = (ls.map List.length).prod
  | [] => rfl
  | c :: cs => by
      simp [List.length_flatMap, length_cartesian cs, List.map_const']

namespace Combinations

/-! ## Index tuples -/

/-- The index tuples of the product: one index below the length of each list, the last
position changing fastest. -/
def indexTuples (L : List (List Argument)) : List (List Nat) :=
  cartesian (L.map fun c => List.range c.length)

/-- The first index tuple: every index zero. -/
def zeros (L : List (List Argument)) : List Nat := L.map fun _ => 0

/-- The index tuples after `is` in lexicographic order, when `is` is one of them. -/
def tuplesAfter : List (List Argument) → List Nat → List (List Nat)
  | c :: cs, i :: is => (tuplesAfter cs is).map (i :: ·) ++
      (List.range' (i + 1) (c.length - (i + 1))).flatMap fun j => (indexTuples cs).map (j :: ·)
  | _, _ => []

section IndexTuples

variable {c : List Argument} {cs L : List (List Argument)} {i : Nat} {is : List Nat}

@[simp] theorem indexTuples_nil : indexTuples [] = [[]] := rfl

theorem indexTuples_cons (c : List Argument) (cs : List (List Argument)) :
    indexTuples (c :: cs) =
      (List.range c.length).flatMap fun i => (indexTuples cs).map (i :: ·) := by
  simp [indexTuples]

@[simp] theorem mem_indexTuples_cons :
    (i :: is) ∈ indexTuples (c :: cs) ↔ i < c.length ∧ is ∈ indexTuples cs := by
  simp [indexTuples_cons]

@[simp] theorem nil_not_mem_indexTuples_cons : [] ∉ indexTuples (c :: cs) := by
  simp [indexTuples_cons]

theorem length_indexTuples (L : List (List Argument)) :
    (indexTuples L).length = (L.map List.length).prod := by
  simp [indexTuples, length_cartesian, Function.comp_def]

/-- A tuple of indices exists only when no list is empty. -/
theorem ne_nil_of_mem_indexTuples : ∀ {L : List (List Argument)} {is : List Nat},
    is ∈ indexTuples L → ∀ c ∈ L, c ≠ []
  | [], _, _ => by simp
  | c :: cs, [], h => absurd h nil_not_mem_indexTuples_cons
  | c :: cs, i :: is, h => by
      obtain ⟨hi, his⟩ := mem_indexTuples_cons.mp h
      intro d hd
      rcases List.mem_cons.mp hd with rfl | hd
      · exact List.ne_nil_of_length_pos (by omega)
      · exact ne_nil_of_mem_indexTuples his d hd

theorem length_of_mem_indexTuples : ∀ {L : List (List Argument)} {is : List Nat},
    is ∈ indexTuples L → is.length = L.length
  | [], is, h => by simp_all
  | c :: cs, [], h => absurd h nil_not_mem_indexTuples_cons
  | c :: cs, i :: is, h => by
      simp [length_of_mem_indexTuples (mem_indexTuples_cons.mp h).2]

/-- With an empty list there is no tuple. -/
theorem indexTuples_eq_nil (h : ∃ c ∈ L, c = []) : indexTuples L = [] := by
  obtain ⟨c, hc, rfl⟩ := h
  refine List.eq_nil_iff_forall_not_mem.mpr fun is his => ?_
  exact ne_nil_of_mem_indexTuples his [] hc rfl

/-- Index tuples are listed in increasing lexicographic order, so each appears once. -/
theorem pairwise_lt_indexTuples : ∀ L : List (List Argument), (indexTuples L).Pairwise (· < ·)
  | [] => by simp
  | c :: cs => by
      rw [indexTuples_cons, List.pairwise_flatMap]
      refine ⟨fun i _ => ?_, ?_⟩
      · -- within a block the first index is fixed and the rest increases
        exact List.pairwise_map.mpr ((pairwise_lt_indexTuples cs).imp fun h =>
          List.cons_lt_cons_iff.mpr (.inr ⟨rfl, h⟩))
      · -- a later block has a larger first index
        refine List.pairwise_lt_range.imp fun hij => ?_
        intro x hx y hy
        obtain ⟨x, -, rfl⟩ := List.mem_map.mp hx
        obtain ⟨y, -, rfl⟩ := List.mem_map.mp hy
        exact List.cons_lt_cons_iff.mpr (.inl hij)

theorem map_getD_range (c : List Argument) :
    (List.range c.length).map (fun i => c.getD i default) = c := by
  apply List.ext_getElem
  · simp
  · intro i h₁ h₂
    simp [List.getElem?_eq_getElem h₂]

/-- Picking the candidates at the index tuples gives the product of the candidate lists. -/
theorem map_pick_indexTuples : ∀ L : List (List Argument),
    (indexTuples L).map (pick L) = cartesian L
  | [] => rfl
  | c :: cs => by
      calc (indexTuples (c :: cs)).map (pick (c :: cs))
          = (List.range c.length).flatMap fun i => (cartesian cs).map (c.getD i default :: ·) := by
            rw [indexTuples_cons, List.map_flatMap, ← map_pick_indexTuples cs]
            simp [pick, List.map_map, Function.comp_def]
        _ = ((List.range c.length).map fun i => c.getD i default).flatMap
              fun x => (cartesian cs).map (x :: ·) := by
            rw [List.flatMap_map]
        _ = cartesian (c :: cs) := by rw [map_getD_range, cartesian_cons]

/-- The first tuple and those after it are all the tuples, when no list is empty. -/
theorem indexTuples_eq_zeros_cons : ∀ {L : List (List Argument)}, (∀ c ∈ L, c ≠ []) →
    indexTuples L = zeros L :: tuplesAfter L (zeros L)
  | [], _ => rfl
  | c :: cs, h => by
      have hc : 0 < c.length := List.length_pos_of_ne_nil (h c (by simp))
      have hcs := indexTuples_eq_zeros_cons fun d hd => h d (List.mem_cons_of_mem c hd)
      obtain ⟨n, hn⟩ : ∃ n, c.length = n + 1 := ⟨c.length - 1, by omega⟩
      have hfirst : (indexTuples cs).map (0 :: ·) =
          (0 :: zeros cs) :: (tuplesAfter cs (zeros cs)).map (0 :: ·) := by
        rw [hcs, List.map_cons]
      rw [indexTuples_cons, hn, List.range_eq_range', List.range'_succ, List.flatMap_cons, hfirst]
      simp only [zeros, List.map_cons, tuplesAfter, hn, List.cons_append, Nat.zero_add,
        Nat.add_sub_cancel]

/-- An advance of the odometer steps from a tuple to the first one after it, and there is none
after the last. -/
theorem tuplesAfter_advance : ∀ {L : List (List Argument)} {is : List Nat},
    is ∈ indexTuples L →
      match advance L is with
      | some is' => tuplesAfter L is = is' :: tuplesAfter L is'
      | none => tuplesAfter L is = []
  | [], is, h => by
      have : is = [] := by simpa using h
      subst this
      simp [advance, tuplesAfter]
  | c :: cs, [], h => absurd h nil_not_mem_indexTuples_cons
  | c :: cs, i :: is, h => by
      obtain ⟨hi, his⟩ := mem_indexTuples_cons.mp h
      have ih := tuplesAfter_advance his
      simp only [advance]
      cases hadv : advance cs is with
      | some is' =>
          -- the carry stops inside the rest: the first index stays
          rw [hadv] at ih
          simp [tuplesAfter, ih]
      | none =>
          rw [hadv] at ih
          by_cases hnext : i + 1 < c.length
          · -- the rest was at its last tuple: the first index moves on, the rest starts over
            simp only [hnext, if_true]
            have hzeros : is.map (fun _ => 0) = zeros cs := by
              simp [zeros, List.map_const', length_of_mem_indexTuples his]
            obtain ⟨m, hm⟩ : ∃ m, c.length - (i + 1) = m + 1 := ⟨c.length - (i + 2), by omega⟩
            rw [hzeros]
            simp only [tuplesAfter, ih, List.map_nil, List.nil_append, hm, List.range'_succ,
              List.flatMap_cons, indexTuples_eq_zeros_cons (ne_nil_of_mem_indexTuples his)]
            have : c.length - (i + 1 + 1) = m := by omega
            simp [this]
          · simp only [hnext, if_false]
            have : c.length - (i + 1) = 0 := by omega
            simp [tuplesAfter, ih, this]

/-- The tuples after one of the product are of the product. -/
theorem mem_of_mem_tuplesAfter : ∀ {L : List (List Argument)} {is js : List Nat},
    is ∈ indexTuples L → js ∈ tuplesAfter L is → js ∈ indexTuples L
  | [], _, _, _, hjs => by simp [tuplesAfter] at hjs
  | c :: cs, [], _, h, _ => absurd h nil_not_mem_indexTuples_cons
  | c :: cs, i :: is, js, h, hjs => by
      obtain ⟨hi, his⟩ := mem_indexTuples_cons.mp h
      simp only [tuplesAfter, List.mem_append, List.mem_map, List.mem_flatMap,
        List.mem_range'_1] at hjs
      rcases hjs with ⟨js, hjs, rfl⟩ | ⟨j, hj, js, hjs, rfl⟩
      · exact mem_indexTuples_cons.mpr ⟨hi, mem_of_mem_tuplesAfter his hjs⟩
      · exact mem_indexTuples_cons.mpr ⟨by omega, hjs⟩

end IndexTuples

/-! ## What is still to come -/

/-- The index tuples still to come. -/
def remaining (it : Combinations) : List (List Nat) :=
  match it.status with
  | .fresh => indexTuples it.candidates
  | .valid => tuplesAfter it.candidates it.indices
  | .exhausted => []

/-- While valid, the indices designate a tuple of the product. -/
def Consistent (it : Combinations) : Prop :=
  it.status = .valid → it.indices ∈ indexTuples it.candidates

@[simp] theorem step_candidates (it : Combinations) : it.step.candidates = it.candidates := by
  unfold step
  split
  · split <;> rfl
  · split <;> rfl
  · rfl

/-- A call of `next` moves to the first tuple still to come, or to the end when none is left. -/
theorem step_remaining {it : Combinations} (hc : Consistent it) :
    Consistent it.step ∧ remaining it.step = (remaining it).tail ∧
      it.step.get? = (remaining it).head?.map (pick it.candidates) ∧
      ∀ x, (remaining it).head? = some x → it.step.indices = x := by
  obtain ⟨L, is, status⟩ := it
  cases status with
  | fresh =>
      by_cases hempty : L.any List.isEmpty
      · -- some list is empty: there is no tuple, and the enumeration ends at once
        have hnil : indexTuples L = [] := indexTuples_eq_nil (by simpa using hempty)
        have hstep : step ⟨L, is, .fresh⟩ = ⟨L, is, .exhausted⟩ := by
          simp only [step]
          rw [if_pos hempty]
        simp [hstep, remaining, Consistent, get?, hnil]
      · have hne : ∀ c ∈ L, c ≠ [] := fun c hc hnil =>
          hempty (List.any_eq_true.mpr ⟨c, hc, by simp [hnil]⟩)
        have hstep : step ⟨L, is, .fresh⟩ = ⟨L, zeros L, .valid⟩ := by
          simp only [step]
          rw [if_neg hempty]
          rfl
        have hL := indexTuples_eq_zeros_cons hne
        refine ⟨fun _ => ?_, ?_, ?_, ?_⟩
        · rw [hstep, hL]
          exact List.mem_cons_self
        · simp [hstep, remaining, hL]
        · simp [hstep, remaining, get?, hL]
        · simp [hstep, remaining, hL]
  | valid =>
      have his : is ∈ indexTuples L := hc rfl
      have hadv := tuplesAfter_advance his
      cases hnext : advance L is with
      | some is' =>
          rw [hnext] at hadv
          have his' : is' ∈ indexTuples L :=
            mem_of_mem_tuplesAfter his (by rw [hadv]; exact List.mem_cons_self)
          simp [step, hnext, remaining, Consistent, get?, hadv, his']
      | none =>
          rw [hnext] at hadv
          simp [step, hnext, remaining, Consistent, get?, hadv]
  | exhausted =>
      simp [step, remaining, Consistent, get?]

/-- After `k` calls of `next` from a fresh enumeration, the tuples still to come are those from
position `k` on. -/
theorem iterate_step_remaining (L : List (List Argument)) : ∀ k : Nat,
    (step^[k] (ofCandidates L)).candidates = L ∧ Consistent (step^[k] (ofCandidates L)) ∧
      remaining (step^[k] (ofCandidates L)) = (indexTuples L).drop k
  | 0 => ⟨rfl, (fun h => by cases h), rfl⟩
  | k + 1 => by
      obtain ⟨hL, hc, hrem⟩ := iterate_step_remaining L k
      obtain ⟨hc', hrem', -, -⟩ := step_remaining hc
      rw [Function.iterate_succ_apply']
      refine ⟨by rw [step_candidates, hL], hc', ?_⟩
      rw [hrem', hrem, List.tail_drop]

/-- The call of `next` after `k` others returns the tuple at position `k`, `none` past the end;
the indices are then those of that tuple. -/
theorem next_iterate_step (L : List (List Argument)) (k : Nat) :
    (step^[k] (ofCandidates L)).next.1 = ((indexTuples L)[k]?).map (pick L) ∧
      ∀ x, (indexTuples L)[k]? = some x → (step^[k + 1] (ofCandidates L)).indices = x := by
  obtain ⟨hL, hc, hrem⟩ := iterate_step_remaining L k
  obtain ⟨-, -, hget, hidx⟩ := step_remaining hc
  rw [hrem, List.head?_drop, hL] at hget
  refine ⟨hget, fun x hx => ?_⟩
  rw [Function.iterate_succ_apply']
  exact hidx x (by rw [hrem, List.head?_drop, hx])

/-! ## Counts and size hints -/

theorem min_min_mul (M a b : Nat) : min M (min M a * b) = min M (a * b) := by
  rcases Nat.eq_zero_or_pos b with rfl | hb
  · simp
  · rcases Nat.le_total a M with h | h
    · rw [Nat.min_eq_right h]
    · rw [Nat.min_eq_left h, Nat.min_eq_left (Nat.le_mul_of_pos_right M hb),
        Nat.min_eq_left (Nat.le_trans h (Nat.le_mul_of_pos_right a hb))]

/-- Saturating at every step is saturating once at the end. -/
theorem foldl_min_mul (M : Nat) : ∀ (ls : List (List Argument)) (init : Nat), init ≤ M →
    ls.foldl (fun acc c => min M (acc * c.length)) init = min M (init * (ls.map List.length).prod)
  | [], init, h => by simp [Nat.min_eq_right h]
  | c :: cs, init, _ => by
      rw [List.foldl_cons, foldl_min_mul M cs _ (Nat.min_le_left _ _), min_min_mul]
      simp [Nat.mul_assoc]

/-- The count is the number of tuples, saturated at the largest machine size. -/
theorem count_eq (it : Combinations) :
    it.count = min sizeLimit (it.candidates.map List.length).prod := by
  unfold count
  rw [foldl_min_mul sizeLimit it.candidates 1 (by decide), Nat.one_mul]

@[simp] theorem reset_eq (it : Combinations) : it.reset = ofCandidates it.candidates := rfl

/-- The size hint never claims more tuples to come than there are, and it claims at least as
many as there are when the product fits in a machine size. -/
theorem sizeHint_bounds {it : Combinations} {k : Nat}
    (hrem : remaining it = (indexTuples it.candidates).drop k) :
    it.sizeHint.1 ≤ (remaining it).length ∧
      ((indexTuples it.candidates).length ≤ sizeLimit → (remaining it).length ≤ it.sizeHint.2) := by
  obtain ⟨L, is, status⟩ := it
  have hcount : count ⟨L, is, status⟩ = min sizeLimit (indexTuples L).length := by
    rw [count_eq, length_indexTuples]
  cases status with
  | fresh =>
      simp only [sizeHint, remaining, hcount]
      exact ⟨Nat.min_le_right _ _, fun h => Nat.le_min.mpr ⟨h, Nat.le_refl _⟩⟩
  | valid =>
      simp only [sizeHint] at hrem ⊢
      refine ⟨Nat.zero_le _, fun h => ?_⟩
      -- what is still to come is a part of all tuples
      rw [hrem, hcount, Nat.min_eq_right h, List.length_drop]
      exact Nat.sub_le _ _
  | exhausted => simp [sizeHint, remaining]

/-! ## The enumeration -/

/-- A fresh enumeration of candidate lists, or one just reset, walks through the index tuples of
their product in lexicographic order, each once: the call of `next` after `k` others returns the
tuple at position `k`, its indices are then those of that tuple, and calls past the end return
`none`; `get?` gives what the last call returned, and `none` before the first call. There is one
empty tuple for no list and none when a list is empty. The count is the number of tuples
saturated at the largest machine size; the size hint never claims more tuples to come than there
are, and, while the product fits in a machine size, at least as many, so that a fresh
enumeration's hint is then exact. -/
theorem odometer_walks_index_tuples (L : List (List Argument)) :
    (indexTuples L).Pairwise (· < ·) ∧ (indexTuples L).map (pick L) = cartesian L ∧
    (indexTuples L).length = (L.map List.length).prod ∧
    (L = [] → indexTuples L = [[]]) ∧ ((∃ c ∈ L, c = []) → indexTuples L = []) ∧
    (ofCandidates L).get? = none ∧ (∀ it : Combinations, it.reset = ofCandidates it.candidates) ∧
    (∀ k, (step^[k] (ofCandidates L)).next.1 = (indexTuples L)[k]?.map (pick L) ∧
      (step^[k + 1] (ofCandidates L)).get? = (indexTuples L)[k]?.map (pick L) ∧
      ∀ x, (indexTuples L)[k]? = some x → (step^[k + 1] (ofCandidates L)).indices = x) ∧
    (∀ it : Combinations, it.count = min sizeLimit (it.candidates.map List.length).prod) ∧
    (ofCandidates L).sizeHint =
      (min sizeLimit (indexTuples L).length, min sizeLimit (indexTuples L).length) ∧
    ∀ k, (step^[k] (ofCandidates L)).sizeHint.1 ≤ (indexTuples L).length - k ∧
      ((indexTuples L).length ≤ sizeLimit →
        (indexTuples L).length - k ≤ (step^[k] (ofCandidates L)).sizeHint.2) := by
  refine ⟨pairwise_lt_indexTuples L, map_pick_indexTuples L, length_indexTuples L,
    fun h => by simp [h], indexTuples_eq_nil, rfl, reset_eq, fun k => ?_, count_eq, ?_, fun k => ?_⟩
  · obtain ⟨hnext, hidx⟩ := next_iterate_step L k
    refine ⟨hnext, ?_, hidx⟩
    rw [Function.iterate_succ_apply']
    exact hnext
  · simp [sizeHint, ofCandidates, count_eq, length_indexTuples]
  · obtain ⟨hL, -, hrem⟩ := iterate_step_remaining L k
    have hbounds := sizeHint_bounds (by rw [hrem, hL])
    rw [hrem, hL, List.length_drop] at hbounds
    exact hbounds

/-- Sixty-four positions with two candidates each have `2^64` combinations, one more than the
largest machine size: a fresh enumeration hints the saturated size, fewer than the combinations
to come. -/
theorem sizeHint_below_product :
    let it := ofCandidates (List.replicate 64 [.const ⟨"a", topType⟩, .const ⟨"b", topType⟩])
    it.sizeHint = (sizeLimit, sizeLimit) ∧ sizeLimit < (cartesian it.candidates).length := by
  refine ⟨?_, ?_⟩
  · simp only [sizeHint, ofCandidates, count_eq]
    decide
  · rw [length_cartesian]
    decide

end Combinations

end Pddl
