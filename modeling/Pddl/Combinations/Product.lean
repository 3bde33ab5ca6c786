/-!
# Cartesian products of lists

`cartesian ls` lists every way of picking one element of each list of `ls`, in lexicographic
order of the positions: the first list varies slowest, the last fastest. The product of no
list is one empty tuple; a product with an empty list has no tuple.
-/

namespace Pddl

/-- All tuples picking one element of each list, the last position changing fastest. -/
def cartesian {α : Type} : List (List α) → List (List α)
  | [] => [[]]
  | c :: cs => c.flatMap fun x => (cartesian cs).map (x :: ·)

@[simp] theorem cartesian_nil {α : Type} : cartesian ([] : List (List α)) = [[]] := rfl

@[simp] theorem cartesian_cons {α : Type} (c : List α) (cs : List (List α)) :
    cartesian (c :: cs) = c.flatMap fun x => (cartesian cs).map (x :: ·) := rfl

/-- `Picks t ls`: the tuple `t` takes, at each position, an element of the list of `ls` there. -/
inductive Picks {α : Type} : List α → List (List α) → Prop where
  | nil : Picks [] []
  | cons {x : α} {c : List α} {xs : List α} {cs : List (List α)} :
      x ∈ c → Picks xs cs → Picks (x :: xs) (c :: cs)

/-- The tuples of the product are exactly the tuples that pick one element of each list. -/
theorem mem_cartesian {α : Type} :
    ∀ (ls : List (List α)) (t : List α), t ∈ cartesian ls ↔ Picks t ls
  | [], t => by
      cases t with
      | nil => exact ⟨fun _ => .nil, fun _ => by simp⟩
      | cons x xs => exact ⟨fun h => by simp at h, fun h => by cases h⟩
  | c :: cs, t => by
      cases t with
      | nil =>
          constructor
          · intro h
            simp at h
          · intro h
            cases h
      | cons x xs =>
          simp only [cartesian_cons, List.mem_flatMap, List.mem_map, mem_cartesian cs]
          constructor
          · rintro ⟨y, hy, ys, hys, h⟩
            cases h
            exact .cons hy hys
          · intro h
            cases h with
            | cons hx hxs => exact ⟨x, hx, xs, hxs, rfl⟩

end Pddl
