import Pddl.Proofs.Ground.Universe
/-!
# Layers of reached atoms

The reachability rounds keep the reached atoms twice: as a state, the layer, and by predicate,
in the order they were reached, with a count per predicate of those reached before the last
layer. This module gives the views the rounds are proved with.

* A state grows (`State.Sub`), and what holds or is added when deletions are ignored only grows
  with it (`Guard.relaxedHolds_mono`, `Action.relaxedAdds_mono`).
* The reached atoms record a list of atoms with the first `k` of them old (`Reached.Records`):
  joining with the old, new or all atoms of a predicate is then filtering a prefix, the rest or
  the whole list (`Records.part_old`, `Records.part_new`, `Records.part_all`).
* Reaching an atom only reads the table, so reaching a list of atoms is a plain fold
  (`Grounder.run_reach`, `Grounder.run_foldlM_pure`); it appends the new atoms to the layer, which
  keeps holding exactly the numbers of the reached atoms (`Frontier.Layered.foldl_reachCount`).
* Instantiating the schemas with their new bindings records the key of every binding met and
  keeps a property of the pending instances that each instantiation gives
  (`Grounder.instantiateSchemas_yields`).
-/

namespace Pddl

/-! ## Growing states -/

/-- Every atom true in `s` is true in `t`. -/
def State.Sub (s t : State) : Prop := ∀ i, s.isSet i = true → t.isSet i = true

theorem State.Sub.refl (s : State) : s.Sub s := fun _ h => h

namespace Formula

variable {s t : State}

mutual

theorem relaxedHolds_mono (hst : s.Sub t) :
    ∀ {f : Formula}, f.relaxedHolds s = true → f.relaxedHolds t = true
  | .lit a p, h => by
      simp only [relaxedHolds, Bool.or_eq_true] at h ⊢
      exact h.imp id (hst a)
  | .and fs, h => by
      simp only [relaxedHolds] at h ⊢
      exact relaxedHoldsAll_mono hst h
  | .or fs, h => by
      simp only [relaxedHolds] at h ⊢
      exact relaxedHoldsAny_mono hst h

theorem relaxedHoldsAll_mono (hst : s.Sub t) :
    ∀ {fs : List Formula}, relaxedHoldsAll s fs = true → relaxedHoldsAll t fs = true
  | [], _ => rfl
  | f :: fs, h => by
      simp only [relaxedHoldsAll, Bool.and_eq_true] at h ⊢
      exact ⟨relaxedHolds_mono hst h.1, relaxedHoldsAll_mono hst h.2⟩

theorem relaxedHoldsAny_mono (hst : s.Sub t) :
    ∀ {fs : List Formula}, relaxedHoldsAny s fs = true → relaxedHoldsAny t fs = true
  | [], h => nomatch h
  | f :: fs, h => by
      simp only [relaxedHoldsAny, Bool.or_eq_true] at h ⊢
      exact h.imp (relaxedHolds_mono hst) (relaxedHoldsAny_mono hst)

end

end Formula

/-- A guard that holds when deletions are ignored keeps holding as the state grows. -/
theorem Guard.relaxedHolds_mono {s t : State} (hst : s.Sub t) {g : Guard}
    (h : g.relaxedHolds s = true) : g.relaxedHolds t = true := by
  unfold Guard.relaxedHolds at h ⊢
  rw [Bool.and_eq_true] at h ⊢
  refine ⟨?_, ?_⟩
  · simp only [State.entailsAll, List.all_eq_true] at h ⊢
    exact fun i hi => hst i (h.1 i hi)
  · cases hf : g.formula with
    | none => rfl
    | some f =>
        rw [hf] at h
        exact f.relaxedHolds_mono hst h.2

/-- What an action adds when deletions are ignored only grows with the state. -/
theorem Action.relaxedAdds_mono {s t : State} (hst : s.Sub t) (a : Action) :
    a.relaxedAdds s ⊆ a.relaxedAdds t := by
  intro i hi
  simp only [Action.relaxedAdds, List.mem_append, List.mem_flatMap, List.mem_filter] at hi ⊢
  rcases hi with hi | ⟨ce, ⟨hce, hholds⟩, hi⟩
  · exact .inl hi
  · exact .inr ⟨ce, ⟨hce, ce.guard.relaxedHolds_mono hst hholds⟩, hi⟩

/-! ## Reached atoms by predicate -/

/-- Looking up a key after changing every entry's value by its key. -/
theorem lookup_map_values {β γ : Type} (g : String → β → γ) (l : List (String × β)) (p : String) :
    (l.map fun e => (e.1, g e.1 e.2)).lookup p = (l.lookup p).map (g p) := by
  induction l with
  | nil => rfl
  | cons e l ih =>
      obtain ⟨k, v⟩ := e
      simp only [List.map_cons, List.lookup_cons]
      cases h : p == k with
      | true =>
          rw [beq_iff_eq] at h
          subst h
          rfl
      | false => exact ih

/-- The filter of a prefix is the prefix of the filter that is as long. -/
theorem take_filter_take {α : Type} (P : α → Bool) (l : List α) (k : Nat) :
    (l.filter P).take ((l.take k).filter P).length = (l.take k).filter P := by
  calc (l.filter P).take ((l.take k).filter P).length
      = ((l.take k).filter P ++ (l.drop k).filter P).take ((l.take k).filter P).length := by
        rw [← List.filter_append, List.take_append_drop]
    _ = (l.take k).filter P := List.take_left

theorem drop_filter_take {α : Type} (P : α → Bool) (l : List α) (k : Nat) :
    (l.filter P).drop ((l.take k).filter P).length = (l.drop k).filter P := by
  calc (l.filter P).drop ((l.take k).filter P).length
      = ((l.take k).filter P ++ (l.drop k).filter P).drop ((l.take k).filter P).length := by
        rw [← List.filter_append, List.take_append_drop]
    _ = (l.drop k).filter P := List.drop_left

namespace Reached

/-- The reached atoms are `as` by predicate, in the order they were reached, and the first `k`
of them count as reached before the last layer. -/
def Records (r : Reached) (as : List GroundAtom) (k : Nat) : Prop :=
  (∀ p, (r.byPred.lookup p).getD [] = as.filter (·.pred == p)) ∧
    ∀ p, (r.old.lookup p).getD 0 = ((as.take k).filter (·.pred == p)).length

theorem records_empty : ({} : Reached).Records [] 0 :=
  ⟨fun _ => rfl, fun _ => rfl⟩

theorem old_add (r : Reached) (a : GroundAtom) : (r.add a).old = r.old := by
  unfold add
  split <;> rfl

theorem getD_lookup_add (r : Reached) (a : GroundAtom) (p : String) :
    ((r.add a).byPred.lookup p).getD [] =
      (r.byPred.lookup p).getD [] ++ (if a.pred = p then [a] else []) := by
  unfold add
  split
  · rename_i hsome
    -- the entry of the atom's predicate gains the atom, the others stay
    have hmap : (r.byPred.map fun e => if e.1 == a.pred then (e.1, e.2 ++ [a]) else e) =
        r.byPred.map fun e => (e.1, if e.1 == a.pred then e.2 ++ [a] else e.2) := by
      refine List.map_congr_left fun e _ => ?_
      split <;> rfl
    have hl : (r.byPred.map fun e => (e.1, if e.1 == a.pred then e.2 ++ [a] else e.2)).lookup p =
        (r.byPred.lookup p).map fun v => if p == a.pred then v ++ [a] else v :=
      lookup_map_values (fun q v => if q == a.pred then v ++ [a] else v) r.byPred p
    rw [hmap, hl]
    by_cases hp : a.pred = p
    · subst hp
      obtain ⟨v, hv⟩ := Option.isSome_iff_exists.mp hsome
      simp [hv]
    · have hne : (p == a.pred) = false := beq_false_of_ne (Ne.symm hp)
      cases r.byPred.lookup p <;> simp [hne, hp]
  · rename_i hnone
    rw [List.lookup_append]
    by_cases hp : a.pred = p
    · subst hp
      rw [Option.not_isSome_iff_eq_none.mp hnone]
      simp
    · have hne : (p == a.pred) = false := beq_false_of_ne (Ne.symm hp)
      simp only [List.lookup_cons, hne, List.lookup_nil, if_neg hp, List.append_nil]
      cases r.byPred.lookup p <;> rfl

theorem Records.add {r : Reached} {as : List GroundAtom} {k : Nat} (h : r.Records as k)
    (hk : k ≤ as.length) (a : GroundAtom) : (r.add a).Records (as ++ [a]) k := by
  refine ⟨fun p => ?_, fun p => ?_⟩
  · rw [getD_lookup_add, h.1 p, List.filter_append]
    by_cases hp : a.pred = p <;> simp [hp]
  · rw [old_add, List.take_append_of_le_length hk]
    exact h.2 p

theorem Records.nextLayer {r : Reached} {as : List GroundAtom} {k : Nat} (h : r.Records as k) :
    r.nextLayer.Records as as.length := by
  refine ⟨h.1, fun p => ?_⟩
  have hl : (r.byPred.map fun e => (e.1, e.2.length)).lookup p =
      (r.byPred.lookup p).map List.length :=
    lookup_map_values (fun _ v => v.length) r.byPred p
  simp only [Reached.nextLayer]
  rw [hl, List.take_length, ← h.1 p]
  cases r.byPred.lookup p <;> rfl

section Parts

variable {r : Reached} {as : List GroundAtom} {k : Nat} (h : r.Records as k) (p : String)
include h

theorem Records.part_all : r.part p .all = as.filter (·.pred == p) := h.1 p

theorem Records.part_old : r.part p .old = (as.take k).filter (·.pred == p) := by
  simp only [part, h.1 p, h.2 p]
  exact take_filter_take _ as k

theorem Records.part_new : r.part p .new = (as.drop k).filter (·.pred == p) := by
  simp only [part, h.1 p, h.2 p]
  exact drop_filter_take _ as k

end Parts

end Reached

/-! ## Reaching atoms -/

/-- An extension of the table gives the atoms of the table the same numbers. -/
theorem AtomTable.Extends.get_eq {t t' : AtomTable} (h : t.Extends t') {i : AtomId}
    (hi : i < t.size) : t'.get i = t.get i := by
  obtain ⟨rest, hrest⟩ := h
  simp only [AtomTable.get, ← hrest, List.getD_eq_getElem?_getD, List.getElem?_append_left hi]

/-- What reaching the atom numbered `a` does, the table being `T`: a new atom joins the layer and
the reached atoms of its predicate; the flag tells whether it was new. -/
def Frontier.reachIn (T : AtomTable) (f : Frontier) (a : AtomId) : Frontier × Bool :=
  if f.layer.isSet a then (f, false)
  else ({ f with layer := f.layer.add a, reached := f.reached.add (T.get a) }, true)

/-- Reaching the next atom of a list, counting it when it is new. -/
def Frontier.reachCount (T : AtomTable) (acc : Frontier × Nat) (a : AtomId) : Frontier × Nat :=
  ((acc.1.reachIn T a).1, if (acc.1.reachIn T a).2 then acc.2 + 1 else acc.2)

namespace Grounder

end Grounder

/-- The layer holds exactly the atoms numbered `ids`, each number once and in the table `T`, and
the reached atoms are theirs in the same order, the first `k` of them before the last layer. -/
structure Frontier.Layered (T : AtomTable) (f : Frontier) (ids : List AtomId) (k : Nat) : Prop where
  nodup : ids.Nodup
  lt_size : ∀ j ∈ ids, j < T.size
  layer : ∀ j, f.layer.isSet j = true ↔ j ∈ ids
  reached : f.reached.Records (ids.map T.get) k
  old_le : k ≤ ids.length

namespace Frontier.Layered

variable {T : AtomTable} {f : Frontier} {ids : List AtomId} {k : Nat}

theorem extend (h : f.Layered T ids k) {T' : AtomTable} (hT : T.Extends T') : f.Layered T' ids k := by
  have hget : ids.map T'.get = ids.map T.get :=
    List.map_congr_left fun j hj => hT.get_eq (h.lt_size j hj)
  refine ⟨h.nodup, fun j hj => Nat.lt_of_lt_of_le (h.lt_size j hj) hT.size_le, h.layer, ?_, h.old_le⟩
  rw [hget]
  exact h.reached

/-- A new atom of the table joins the layer, at the end of the reached atoms. -/
theorem reachIn (h : f.Layered T ids k) {a : AtomId} (ha : a < T.size)
    (hnew : f.layer.isSet a = false) : (f.reachIn T a).1.Layered T (ids ++ [a]) k := by
  have hnot : a ∉ ids := fun hmem => by
    rw [(h.layer a).mpr hmem] at hnew
    cases hnew
  simp only [Frontier.reachIn, hnew, Bool.false_eq_true, ↓reduceIte]
  refine ⟨h.nodup.append (List.nodup_singleton a) ?_, fun j hj => ?_, fun j => ?_, ?_, ?_⟩
  · exact fun j hj hja => hnot ((List.mem_singleton.mp hja) ▸ hj)
  · rcases List.mem_append.mp hj with hj | hj
    · exact h.lt_size j hj
    · exact (List.mem_singleton.mp hj) ▸ ha
  · rw [State.isSet_add_iff, h.layer j, List.mem_append, List.mem_singleton, or_comm, @eq_comm _ a j]
  · rw [List.map_append, List.map_singleton]
    exact h.reached.add (by rw [List.length_map]; exact h.old_le) (T.get a)
  · rw [List.length_append]
    exact Nat.le_add_right_of_le h.old_le

end Frontier.Layered

/-- Reaching the atoms of a list, each a number of the table, appends the new ones to the layer
and counts them; every atom of the list ends up in the layer, and nothing but the layer and the
reached atoms changes. -/
theorem Frontier.Layered.foldl_reachCount {T : AtomTable} {k : Nat} :
    ∀ {added : List AtomId} {f : Frontier} {ids : List AtomId} {c : Nat},
      f.Layered T ids k → (∀ a ∈ added, a < T.size) →
      ∃ new, (added.foldl (reachCount T) (f, c)).1.Layered T (ids ++ new) k ∧
        (added.foldl (reachCount T) (f, c)).2 = c + new.length ∧
        (∀ j ∈ new, j ∈ added) ∧ (∀ a ∈ added, a ∈ ids ++ new) ∧
        ∃ L R, (added.foldl (reachCount T) (f, c)).1 = { f with layer := L, reached := R }
  | [], f, ids, c, h, _ => ⟨[], by simpa using h, rfl, nofun, nofun, f.layer, f.reached, rfl⟩
  | a :: added, f, ids, c, h, hlt => by
      have hrest : ∀ b ∈ added, b < T.size := fun b hb => hlt b (.tail _ hb)
      cases hset : f.layer.isSet a with
      | true =>
          -- a reached atom changes nothing
          have hstep : reachCount T (f, c) a = (f, c) := by
            simp [reachCount, Frontier.reachIn, hset]
          obtain ⟨new, hl, hc, hnew, hall, L, R, hf⟩ := foldl_reachCount h hrest
          rw [List.foldl_cons, hstep]
          refine ⟨new, hl, hc, fun j hj => .tail _ (hnew j hj), fun b hb => ?_, L, R, hf⟩
          rcases List.mem_cons.mp hb with rfl | hb
          · exact List.mem_append_left _ ((h.layer b).mp hset)
          · exact hall b hb
      | false =>
          have h' := h.reachIn (hlt a (.head _)) hset
          have hstep : reachCount T (f, c) a = ((f.reachIn T a).1, c + 1) := by
            simp [reachCount, Frontier.reachIn, hset]
          obtain ⟨new, hl, hc, hnew, hall, L, R, hf⟩ := foldl_reachCount h' hrest
          rw [List.foldl_cons, hstep]
          refine ⟨a :: new, by simpa using hl, by rw [hc, List.length_cons]; omega, fun j hj => ?_,
            fun b hb => ?_, L, R, ?_⟩
          · rcases List.mem_cons.mp hj with rfl | hj
            · exact .head _
            · exact .tail _ (hnew j hj)
          · rcases List.mem_cons.mp hb with rfl | hb
            · simp
            · simpa using hall b hb
          · rw [hf]
            simp [Frontier.reachIn, hset]

/-! ## Instantiating schemas -/

namespace Grounder

open GroundM

variable {β : Type} {Pre : AtomTable → Prop} {V : β → AtomTable → Prop}

/-- Instantiating a schema with a list of bindings records the key of each of them, keeps the
keys seen before, and keeps a property of the pending instances that each instantiation gives. -/
theorem instantiateNew_yields {i : Nat} {bindings : List (List Argument)}
    {inst : List Argument → GroundM (Option β)} {seen : List (Nat × List String)} {pending : List β}
    (hinst : ∀ args ∈ bindings, Yields (fun _ => True) (fun r T => ∀ b ∈ r, V b T) (inst args))
    (hpend : ∀ T, Pre T → ∀ b ∈ pending, V b T) :
    Yields Pre (fun r T => (∀ x ∈ seen, x ∈ r.1) ∧
        (∀ args ∈ bindings, (i, args.map Argument.name) ∈ r.1) ∧ ∀ b ∈ r.2, V b T)
      (instantiateNew i bindings inst seen pending) := by
  unfold instantiateNew
  refine Yields.foldlM (fun (done : List (List Argument)) (acc : List (Nat × List String) × List β) T =>
      (∀ x ∈ seen, x ∈ acc.1) ∧ (∀ args ∈ done, (i, args.map Argument.name) ∈ acc.1) ∧
        ∀ b ∈ acc.2, V b T) bindings
    (fun T hT => ⟨fun _ h => h, nofun, hpend T hT⟩) fun done acc args hargs => ?_
  simp only
  split
  · rename_i hseen
    refine Yields.pure fun T h => ⟨h.1, fun a ha => ?_, h.2.2⟩
    rcases List.mem_append.mp ha with ha | ha
    · exact h.2.1 a ha
    · rw [List.mem_singleton.mp ha]
      exact List.contains_iff_mem.mp hseen
  · -- a new key is recorded whatever the instantiation gives
    have hkeys : ∀ T, (fun T => (∀ x ∈ seen, x ∈ acc.1) ∧
        (∀ args ∈ done, (i, args.map Argument.name) ∈ acc.1) ∧ ∀ b ∈ acc.2, V b T) T →
        (∀ x ∈ seen, x ∈ acc.1 ++ [(i, args.map Argument.name)]) ∧
          ∀ a ∈ done ++ [args], (i, a.map Argument.name) ∈ acc.1 ++ [(i, args.map Argument.name)] :=
      fun T h => ⟨fun x hx => List.mem_append_left _ (h.1 x hx), fun a ha => by
        rcases List.mem_append.mp ha with ha | ha
        · exact List.mem_append_left _ (h.2.1 a ha)
        · rw [List.mem_singleton.mp ha]
          exact List.mem_append_right _ (.head _)⟩
    refine ((hinst args hargs).imp (fun _ _ => trivial) fun _ _ _ h => h).bind fun r => ?_
    split
    · rename_i b
      refine Yields.pure fun T h => ⟨(hkeys T h.1).1, (hkeys T h.1).2, fun b' hb' => ?_⟩
      rcases List.mem_append.mp hb' with hb' | hb'
      · exact h.1.2.2 b' hb'
      · rw [List.mem_singleton.mp hb']
        exact h.2 b rfl
    · exact Yields.pure fun T h => ⟨(hkeys T h.1).1, (hkeys T h.1).2, h.1.2.2⟩

/-- Instantiating every schema, with its position, records the key of every binding of every
schema and keeps a property of the pending instances that each instantiation gives. -/
theorem instantiateSchemas_yields {σ : Type} (schemas : List σ)
    (bindings : σ → List (List Argument)) (inst : σ → List Argument → GroundM (Option β))
    (step : List (Nat × List String) × List β → σ × Nat →
      GroundM (List (Nat × List String) × List β))
    (hstep : ∀ acc s i, step acc (s, i) = instantiateNew i (bindings s) (inst s) acc.1 acc.2)
    (hinst : ∀ s ∈ schemas, ∀ args ∈ bindings s,
      Yields (fun _ => True) (fun r T => ∀ b ∈ r, V b T) (inst s args))
    {seen : List (Nat × List String)} {pending : List β}
    (hpend : ∀ T, Pre T → ∀ b ∈ pending, V b T) :
    Yields Pre (fun r T => (∀ x ∈ seen, x ∈ r.1) ∧
        (∀ s i, (s, i) ∈ schemas.zipIdx → ∀ args ∈ bindings s, (i, args.map Argument.name) ∈ r.1) ∧
        ∀ b ∈ r.2, V b T)
      (schemas.zipIdx.foldlM step (seen, pending)) := by
  refine Yields.foldlM (fun (done : List (σ × Nat)) (acc : List (Nat × List String) × List β) T =>
      (∀ x ∈ seen, x ∈ acc.1) ∧
        (∀ s i, (s, i) ∈ done → ∀ args ∈ bindings s, (i, args.map Argument.name) ∈ acc.1) ∧
        ∀ b ∈ acc.2, V b T) schemas.zipIdx
    (fun T hT => ⟨fun _ h => h, nofun, hpend T hT⟩) fun done acc x hx => ?_
  obtain ⟨s, i⟩ := x
  rw [hstep]
  refine (instantiateNew_yields (hinst s (List.fst_mem_of_mem_zipIdx hx)) fun T h => h.2.2).imp
    (fun _ h => h) fun r T h hr => ⟨fun x hx => hr.1 x (h.1 x hx), fun s' i' hs' args hargs => ?_, hr.2.2⟩
  rcases List.mem_append.mp hs' with hs' | hs'
  · exact hr.1 _ (h.2.1 s' i' hs' args hargs)
  · cases List.mem_singleton.mp hs'
    exact hr.2.1 args hargs

end Grounder

end Pddl
