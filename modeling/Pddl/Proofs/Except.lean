import Pddl.Model.Error
import Mathlib
/-!
# Outcomes of checks that may fail

The builder and the grounder are written in `Except`. Two facts carry most proofs about them: a
sequence of two steps succeeds when the first succeeds and the second succeeds on its result, and
a check run over every element of a list succeeds when it succeeds on each element.
-/

namespace Pddl

variable {ε α β : Type}

@[simp] theorem except_bind_eq_ok {x : Except ε α} {f : α → Except ε β} {b : β} :
    x >>= f = .ok b ↔ ∃ a, x = .ok a ∧ f a = .ok b := by
  cases x <;> simp [bind, Except.bind]

@[simp] theorem except_throw_ne_ok {e : ε} {a : α} : (throw e : Except ε α) ≠ .ok a := by
  simp [throw, throwThe, MonadExceptOf.throw]

@[simp] theorem except_pure_eq_ok {a b : α} : (pure a : Except ε α) = .ok b ↔ a = b := by
  simp [pure, Except.pure]

theorem except_map_eq_ok {f : α → β} {x : Except ε α} {b : β} :
    f <$> x = .ok b ↔ ∃ a, x = .ok a ∧ f a = b := by
  cases x <;> simp [Functor.map, Except.map]

/-- A check over a list succeeds when it succeeds on every element. -/
theorem forM_eq_ok {xs : List α} {f : α → Except ε PUnit} :
    xs.forM f = .ok () ↔ ∀ x ∈ xs, f x = .ok () := by
  induction xs with
  | nil => simp [pure, Except.pure]
  | cons x xs ih =>
      rw [List.forM_eq_forM] at ih ⊢
      simp only [List.forM_cons, except_bind_eq_ok, ih, List.mem_cons, forall_eq_or_imp]
      constructor
      · rintro ⟨⟨⟩, hx, hxs⟩
        exact ⟨hx, hxs⟩
      · rintro ⟨hx, hxs⟩
        exact ⟨(), hx, hxs⟩

@[simp] theorem except_bind_eq_error {x : Except ε α} {f : α → Except ε β} {e : ε} :
    x >>= f = .error e ↔ x = .error e ∨ ∃ a, x = .ok a ∧ f a = .error e := by
  cases x <;> simp [bind, Except.bind]

@[simp] theorem except_pure_ne_error {a : α} {e : ε} : (pure a : Except ε α) ≠ .error e := by
  simp [pure, Except.pure]

/-- Every error of a fold is an error of one of its steps. -/
theorem foldlM_eq_error {f : β → α → Except ε β} (Q : ε → Prop)
    (hf : ∀ b x e, f b x = .error e → Q e) :
    ∀ {xs : List α} {init : β} {e : ε}, xs.foldlM f init = .error e → Q e
  | [], _, _, h => absurd h except_pure_ne_error
  | x :: xs, init, e, h => by
      rw [List.foldlM_cons, except_bind_eq_error] at h
      rcases h with h | ⟨b, _, h⟩
      · exact hf init x e h
      · exact foldlM_eq_error Q hf h

/-- A fold of steps that may fail keeps an invariant that each step keeps. -/
theorem except_foldlM_invariant {f : β → α → Except ε β} (I : β → Prop)
    (hf : ∀ b x b', I b → f b x = .ok b' → I b') :
    ∀ {xs : List α} {init b : β}, I init → xs.foldlM f init = .ok b → I b
  | [], _, _, h0, h => by
      rw [List.foldlM_nil, except_pure_eq_ok] at h
      exact h ▸ h0
  | x :: xs, init, b, h0, h => by
      rw [List.foldlM_cons, except_bind_eq_ok] at h
      obtain ⟨b', hx, h⟩ := h
      exact except_foldlM_invariant I hf (hf init x b' h0 hx) h

/-- A fold of partial steps keeps an invariant that each step keeps. -/
theorem option_foldlM_invariant {f : β → α → Option β} (I : β → Prop)
    (hf : ∀ b x b', I b → f b x = some b' → I b') :
    ∀ {xs : List α} {init b : β}, I init → xs.foldlM f init = some b → I b
  | [], _, _, h0, h => by
      cases h
      exact h0
  | x :: xs, init, b, h0, h => by
      rw [List.foldlM_cons] at h
      cases hx : f init x with
      | none => simp [hx] at h
      | some b' =>
          rw [hx] at h
          exact option_foldlM_invariant I hf (hf init x b' h0 hx) h

end Pddl
