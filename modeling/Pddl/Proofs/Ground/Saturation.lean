import Pddl.Proofs.Ground.Join
import Pddl.Proofs.Ground.Layers
/-!
# The reachability rounds end at a fixpoint

The rounds of `groundReachable` stop at the first round that reaches no atom. This module shows
that for every problem whose objects have distinct names they stop there, and not because their
fuel runs out, and that the frontier they stop at is saturated (`Frontier.Saturated`): the layer
holds every atom of the initial state;

* every kept action holds in it when deletions are ignored, and so does every kept axiom, and the
  layer holds what they add;
* every pending instance, one instantiated but not kept, does not hold in it;
* every well-typed binding of an operator's or an axiom's parameters whose required literals are
  all atoms of the layer was instantiated;
* every atom of the layer is an atom of the initial state, one a kept action adds, or the atom of
  a kept axiom.

One fact carries the rounds (`Frontier.Tracks`). At the start of a round the layer holds the atoms
`ids`, in the order reached, the first `k` of them before the last layer, and the reached atoms
are theirs; kept instances hold, pending ones add atoms of the table, and every binding that the
first `k` atoms support was instantiated (`BindingsSeen`). A round keeps it with the whole layer
as old atoms: the semi-naive join finds every binding the new atoms complete
(`newBindings_complete`). A round that reaches no atom leaves the layer as it was, and the fact
then says the frontier is saturated.

The atoms of the layer are numbers of the table, each once, and the table holds atoms of the
problem's universe only, each once: there are at most `atomBound` of them, whatever the problem
declares. Every round but the last reaches one, so `atomBound + 1` rounds are enough
(`reachRounds_saturated`).

Main statement: `relaxed_grounding_saturates`. Its hypothesis, distinct object names, is what the
objects of every built problem have (`Problem.wellBuilt_build`): the join finds an object by its
name, and a binding to the second of two objects of one name would never be found.
-/

namespace Pddl

/-! ## Bindings instantiated -/

/-- Every well-typed binding of the parameters whose required literals all match atoms of `old`
was instantiated: its key, with the schema's position `i`, is among `seen`. While `first` holds,
the bindings of a condition without required literal are not asked for. -/
def BindingsSeen (pb : Problem) (params : List Param) (c : Condition) (i : Nat)
    (old : List GroundAtom) (first : Bool) (seen : List (Nat × List String)) : Prop :=
  ∀ os, WellTyped pb params os → (requiredLiterals c ≠ [] ∨ first = false) →
    (∀ l ∈ requiredLiterals c, ∃ a ∈ old, LiteralMatches params os l a) →
      (i, os.map (·.name)) ∈ seen

namespace BindingsSeen

variable {pb : Problem} {params : List Param} {c : Condition} {i : Nat}
  {seen : List (Nat × List String)}

/-- Before the first round nothing is asked for: no atom supports a required literal. -/
theorem initial : BindingsSeen pb params c i [] true seen := by
  intro os _ hne hsupp
  rcases hne with hne | hne
  · obtain ⟨l, hl⟩ := List.exists_mem_of_ne_nil _ hne
    obtain ⟨a, ha, _⟩ := hsupp l hl
    cases ha
  · cases hne

/-- A round asks for the bindings that all reached atoms support: those the old atoms support
were instantiated before, and the others are among the round's new bindings. -/
theorem round (hnd : (pb.objects.map (·.name)).Nodup) {r : Reached} {as : List GroundAtom}
    {k : Nat} {first : Bool} (hr : r.Records as k)
    (hold : BindingsSeen pb params c i (as.take k) first seen)
    {seen' : List (Nat × List String)} (hsub : ∀ x ∈ seen, x ∈ seen')
    (hnew : ∀ args ∈ newBindings pb params c r first, (i, args.map Argument.name) ∈ seen') :
    BindingsSeen pb params c i as false seen' := by
  intro os hwt _ hsupp
  by_cases hknown : (requiredLiterals c ≠ [] ∨ first = false) ∧
      ∀ l ∈ requiredLiterals c, ∃ a ∈ as.take k, LiteralMatches params os l a
  · exact hsub _ (hold os hwt hknown.1 hknown.2)
  · have hmem : os.map .const ∈ newBindings pb params c r first := by
      refine newBindings_complete hwt hnd (fun a (ha : a ∈ as.take k) => ?_)
        (fun a (ha : a ∈ as) hnot => ?_) (fun a ha => ?_) hsupp (fun hnil => ?_)
        fun hne hall => hknown ⟨.inl hne, hall⟩
      · rw [hr.part_old]
        exact List.mem_filter.mpr ⟨ha, by simp⟩
      · rw [hr.part_new]
        refine List.mem_filter.mpr ⟨?_, by simp⟩
        rw [← List.take_append_drop k as] at ha
        exact (List.mem_append.mp ha).resolve_left hnot
      · rw [hr.part_all]
        exact List.mem_filter.mpr ⟨ha, by simp⟩
      · -- a condition without required literal is asked for in the first round only
        cases first
        · exact absurd ⟨.inr rfl, fun l hl => by simp [hnil] at hl⟩ hknown
        · rfl
    have hkey := hnew _ hmem
    rw [List.map_map] at hkey
    exact hkey

end BindingsSeen

/-! ## What holds at the start of every round -/

/-- Why the atom numbered `i` is reached: it is an atom of the initial state, an atom a kept
action adds in the layer, or the atom of a kept axiom. -/
def Frontier.Supports (pb : Problem) (T : AtomTable) (f : Frontier) (i : AtomId) : Prop :=
  (∃ l ∈ pb.init, T.Numbers l i) ∨ (∃ a ∈ f.actions, i ∈ a.relaxedAdds f.layer) ∨
    ∃ ax ∈ f.axioms, ax.atom = i

theorem Frontier.Supports.mono {pb : Problem} {T T' : AtomTable} {f f' : Frontier} {i : AtomId}
    (h : f.Supports pb T i) (hT : T.Extends T') (hl : f.layer.Sub f'.layer)
    (ha : f.actions ⊆ f'.actions) (hx : f.axioms ⊆ f'.axioms) : f'.Supports pb T' i := by
  rcases h with ⟨l, hl', hn⟩ | ⟨a, ha', hi⟩ | ⟨ax, hax, rfl⟩
  · exact .inl ⟨l, hl', hn.extend hT⟩
  · exact .inr (.inl ⟨a, ha ha', a.relaxedAdds_mono hl hi⟩)
  · exact .inr (.inr ⟨ax, hx hax, rfl⟩)

/-- The frontier at the start of a round, the table being `T`: the layer holds the atoms `ids`,
the first `k` of them reached before the last layer; it holds the atoms of the initial state, and
each of its atoms is supported; kept instances hold in it when deletions are ignored; kept and
pending instances add atoms of the table; and every binding that the first `k` atoms support was
instantiated. -/
structure Frontier.Tracks (pb : Problem) (f : Frontier) (ids : List AtomId) (k : Nat)
    (first : Bool) (T : AtomTable) : Prop where
  layered : f.Layered T ids k
  init : ∀ l ∈ pb.init, ∃ i, T.Numbers l i ∧ f.layer.isSet i = true
  support : ∀ i, f.layer.isSet i = true → f.Supports pb T i
  kept_actions : ∀ a ∈ f.actions, a.pre.relaxedHolds f.layer = true
  kept_axioms : ∀ ax ∈ f.axioms, ax.guard.relaxedHolds f.layer = true
  valid_actions : ∀ a ∈ f.actions ++ f.pendingActions, a.AddsIn T
  valid_axioms : ∀ ax ∈ f.axioms ++ f.pendingAxioms, ax.atom < T.size
  seen_actions : ∀ op i, (op, i) ∈ pb.operators.zipIdx →
    BindingsSeen pb op.params op.pre i ((ids.take k).map T.get) first f.seenActions
  seen_axioms : ∀ ax i, (ax, i) ∈ pb.axioms.zipIdx →
    BindingsSeen pb ax.params ax.cond i ((ids.take k).map T.get) first f.seenAxioms

/-- The frontier the rounds stop at, the table being `T`: a fixpoint of the rounds when deletions
are ignored. -/
structure Frontier.Saturated (pb : Problem) (T : AtomTable) (f : Frontier) : Prop where
  /-- The layer holds every atom of the initial state. -/
  init : ∀ l ∈ pb.init, ∃ i, T.Numbers l i ∧ f.layer.isSet i = true
  /-- Every kept action holds, and the layer holds what it adds. -/
  actions : ∀ a ∈ f.actions, a.pre.relaxedHolds f.layer = true ∧
    ∀ i ∈ a.relaxedAdds f.layer, f.layer.isSet i = true
  /-- Every kept axiom holds, and the layer holds its atom. -/
  axioms : ∀ ax ∈ f.axioms, ax.guard.relaxedHolds f.layer = true ∧ f.layer.isSet ax.atom = true
  /-- Every action instantiated but not kept does not hold. -/
  discarded_actions : ∀ a ∈ f.pendingActions, a.pre.relaxedHolds f.layer = false
  /-- Every axiom instance not kept does not hold. -/
  discarded_axioms : ∀ ax ∈ f.pendingAxioms, ax.guard.relaxedHolds f.layer = false
  /-- Every well-typed binding of an operator's parameters whose required literals are atoms of
  the layer was instantiated. -/
  operators_instantiated : ∀ op i, (op, i) ∈ pb.operators.zipIdx → ∀ os,
    WellTyped pb op.params os →
    (∀ l ∈ requiredLiterals op.pre, ∃ j, f.layer.isSet j = true ∧
      LiteralMatches op.params os l (T.get j)) →
    (i, os.map (·.name)) ∈ f.seenActions
  /-- Every well-typed binding of an axiom's parameters whose required literals are atoms of the
  layer was instantiated. -/
  axioms_instantiated : ∀ ax i, (ax, i) ∈ pb.axioms.zipIdx → ∀ os,
    WellTyped pb ax.params os →
    (∀ l ∈ requiredLiterals ax.cond, ∃ j, f.layer.isSet j = true ∧
      LiteralMatches ax.params os l (T.get j)) →
    (i, os.map (·.name)) ∈ f.seenAxioms
  /-- Every atom of the layer is supported. -/
  support : ∀ i, f.layer.isSet i = true → f.Supports pb T i

section Extend

variable {pb : Problem} {f : Frontier} {T T' : AtomTable}

theorem Frontier.Tracks.extend {ids : List AtomId} {k : Nat} {first : Bool}
    (h : f.Tracks pb ids k first T) (hT : T.Extends T') : f.Tracks pb ids k first T' := by
  have hget : (ids.take k).map T'.get = (ids.take k).map T.get :=
    List.map_congr_left fun j hj => hT.get_eq (h.layered.lt_size j (List.mem_of_mem_take hj))
  refine ⟨h.layered.extend hT, fun l hl => ?_, fun i hi => ?_, h.kept_actions, h.kept_axioms,
    fun a ha => (h.valid_actions a ha).extend hT,
    fun ax hax => Nat.lt_of_lt_of_le (h.valid_axioms ax hax) hT.size_le, fun op i hop => ?_,
    fun ax i hax => ?_⟩
  · obtain ⟨i, hi, hset⟩ := h.init l hl
    exact ⟨i, hi.extend hT, hset⟩
  · exact (h.support i hi).mono hT (State.Sub.refl _) (fun _ h => h) fun _ h => h
  · rw [hget]
    exact h.seen_actions op i hop
  · rw [hget]
    exact h.seen_axioms ax i hax

/-- Saturation does not depend on the atoms the table gains beyond those of the layer. -/
theorem Frontier.Saturated.extend (h : f.Saturated pb T)
    (hlt : ∀ j, f.layer.isSet j = true → j < T.size) (hT : T.Extends T') : f.Saturated pb T' := by
  have hget : ∀ j, f.layer.isSet j = true → T'.get j = T.get j := fun j hj => hT.get_eq (hlt j hj)
  refine ⟨fun l hl => ?_, h.actions, h.axioms, h.discarded_actions, h.discarded_axioms,
    fun op i hop os hwt hsupp => ?_, fun ax i hax os hwt hsupp => ?_, fun i hi => ?_⟩
  · obtain ⟨i, hi, hset⟩ := h.init l hl
    exact ⟨i, hi.extend hT, hset⟩
  · refine h.operators_instantiated op i hop os hwt fun l hl => ?_
    obtain ⟨j, hj, hm⟩ := hsupp l hl
    exact ⟨j, hj, hget j hj ▸ hm⟩
  · refine h.axioms_instantiated ax i hax os hwt fun l hl => ?_
    obtain ⟨j, hj, hm⟩ := hsupp l hl
    exact ⟨j, hj, hget j hj ▸ hm⟩
  · exact (h.support i hi).mono hT (State.Sub.refl _) (fun _ h => h) fun _ h => h

end Extend

/-! ## One round -/

/-- The frontier after the instantiations of a round, before it reaches atoms: every atom reached
so far becomes old, the keys and the pending instances are the instantiations', and the pending
instances that hold in the layer when deletions are ignored are kept. -/
def Frontier.select (f : Frontier) (sa : List (Nat × List String)) (pa : List Action)
    (sx : List (Nat × List String)) (px : List GroundAxiom) : Frontier :=
  { f with reached := f.reached.nextLayer, seenActions := sa, seenAxioms := sx,
           pendingActions := pa.filter fun a => !a.pre.relaxedHolds f.layer,
           pendingAxioms := px.filter fun ax => !ax.guard.relaxedHolds f.layer,
           actions := f.actions ++ pa.filter (·.pre.relaxedHolds f.layer),
           axioms := f.axioms ++ px.filter (·.guard.relaxedHolds f.layer) }

/-- The atoms a round reaches: those the kept actions add and the atoms of the kept axioms that
hold, deletions ignored, as far as the layer does not hold them yet. -/
def Frontier.added (f : Frontier) : List AtomId :=
  (f.actions.flatMap (·.relaxedAdds f.layer) ++
    (f.axioms.filter (·.guard.relaxedHolds f.layer)).map (·.atom)).filter fun a => !f.layer.isSet a

/-- The end of a round, from the frontier after its instantiations: the atoms it reaches are
reached, and the new ones counted. -/
def Frontier.reachAdded (T : AtomTable) (f : Frontier) : Frontier × Nat :=
  f.added.foldl (reachCount T) (f, 0)

/-- An atom a round reaches is off the layer, and a kept action adds it or it is the atom of a
kept axiom that holds, deletions ignored. -/
theorem Frontier.mem_added {f : Frontier} {i : AtomId} :
    i ∈ f.added ↔ f.layer.isSet i = false ∧ ((∃ a ∈ f.actions, i ∈ a.relaxedAdds f.layer) ∨
      ∃ ax ∈ f.axioms, ax.guard.relaxedHolds f.layer = true ∧ ax.atom = i) := by
  simp only [Frontier.added, List.mem_filter, List.mem_append, List.mem_flatMap, List.mem_map,
    Bool.not_eq_true', and_assoc]
  constructor
  · rintro ⟨h, hoff⟩
    exact ⟨hoff, h⟩
  · rintro ⟨hoff, h⟩
    exact ⟨h, hoff⟩

/-- The atoms a round reaches are numbers of the table when its instances add such atoms. -/
theorem Frontier.added_lt_size {f : Frontier} {T : AtomTable}
    (hA : ∀ a ∈ f.actions, a.AddsIn T) (hX : ∀ ax ∈ f.axioms, ax.atom < T.size) :
    ∀ i ∈ f.added, i < T.size := by
  intro i hi
  rcases (Frontier.mem_added.mp hi).2 with ⟨a, ha, hi'⟩ | ⟨ax, hax, -, rfl⟩
  · exact (hA a ha).relaxedAdds _ i hi'
  · exact hX ax hax

/-- Instantiation leaves the layer and makes the whole of it old. -/
theorem Frontier.Layered.select {f : Frontier} {T : AtomTable} {ids : List AtomId} {k : Nat}
    (h : f.Layered T ids k) (sa : List (Nat × List String)) (pa : List Action)
    (sx : List (Nat × List String)) (px : List GroundAxiom) :
    (f.select sa pa sx px).Layered T ids ids.length := by
  refine ⟨h.nodup, h.lt_size, h.layer, ?_, Nat.le_refl _⟩
  have hnext := h.reached.nextLayer
  rwa [List.length_map] at hnext

section Round

variable {pb : Problem} {f : Frontier} {ids : List AtomId} {k : Nat} {first : Bool}
  {T : AtomTable} {sa sx : List (Nat × List String)} {pa : List Action} {px : List GroundAxiom}

/-- The instances kept after the instantiations hold in the layer, deletions ignored. -/
theorem Frontier.Tracks.select_kept (hf : f.Tracks pb ids k first T)
    (sa : List (Nat × List String)) (pa : List Action) (sx : List (Nat × List String))
    (px : List GroundAxiom) :
    (∀ a ∈ (f.select sa pa sx px).actions, a.pre.relaxedHolds f.layer = true) ∧
      ∀ ax ∈ (f.select sa pa sx px).axioms, ax.guard.relaxedHolds f.layer = true := by
  refine ⟨fun a ha => ?_, fun ax hax => ?_⟩
  · rcases List.mem_append.mp ha with ha | ha
    · exact hf.kept_actions a ha
    · exact (List.mem_filter.mp ha).2
  · rcases List.mem_append.mp hax with hax | hax
    · exact hf.kept_axioms ax hax
    · exact (List.mem_filter.mp hax).2

/-- The kept and pending instances after the instantiations add atoms of the table. -/
theorem Frontier.Tracks.select_valid (hf : f.Tracks pb ids k first T)
    (sa sx : List (Nat × List String)) (hpa : ∀ a ∈ pa, a.AddsIn T)
    (hpx : ∀ ax ∈ px, ax.atom < T.size) :
    (∀ a ∈ (f.select sa pa sx px).actions ++ (f.select sa pa sx px).pendingActions, a.AddsIn T) ∧
      ∀ ax ∈ (f.select sa pa sx px).axioms ++ (f.select sa pa sx px).pendingAxioms,
        ax.atom < T.size := by
  refine ⟨fun a ha => ?_, fun ax hax => ?_⟩
  · simp only [Frontier.select, List.mem_append, List.mem_filter] at ha
    rcases ha with (ha | ⟨ha, _⟩) | ⟨ha, _⟩
    · exact hf.valid_actions a (List.mem_append_left _ ha)
    · exact hpa a ha
    · exact hpa a ha
  · simp only [Frontier.select, List.mem_append, List.mem_filter] at hax
    rcases hax with (hax | ⟨hax, _⟩) | ⟨hax, _⟩
    · exact hf.valid_axioms ax (List.mem_append_left _ hax)
    · exact hpx ax hax
    · exact hpx ax hax

/-- When the round has no atom to reach, the frontier after its instantiations is saturated. -/
theorem Frontier.Tracks.saturated_select (hf : f.Tracks pb ids k first T)
    (hseenA : ∀ op i, (op, i) ∈ pb.operators.zipIdx →
      BindingsSeen pb op.params op.pre i (ids.map T.get) false sa)
    (hseenX : ∀ ax i, (ax, i) ∈ pb.axioms.zipIdx →
      BindingsSeen pb ax.params ax.cond i (ids.map T.get) false sx)
    (hnil : (f.select sa pa sx px).added = []) : (f.select sa pa sx px).Saturated pb T := by
  -- everything the kept instances add is in the layer already
  have hin : ∀ i, ((∃ a ∈ (f.select sa pa sx px).actions, i ∈ a.relaxedAdds f.layer) ∨
      ∃ ax ∈ (f.select sa pa sx px).axioms, ax.guard.relaxedHolds f.layer = true ∧ ax.atom = i) →
      f.layer.isSet i = true := by
    intro i h
    cases hoff : f.layer.isSet i with
    | false =>
        have hmem : i ∈ (f.select sa pa sx px).added := Frontier.mem_added.mpr ⟨hoff, h⟩
        rw [hnil] at hmem
        cases hmem
    | true => rfl
  obtain ⟨hkeptA, hkeptX⟩ := hf.select_kept sa pa sx px
  have hbind : ∀ (params : List Param) (c : Condition) (i : Nat) (seen : List (Nat × List String)),
      BindingsSeen pb params c i (ids.map T.get) false seen → ∀ os, WellTyped pb params os →
      (∀ l ∈ requiredLiterals c, ∃ j, f.layer.isSet j = true ∧ LiteralMatches params os l (T.get j)) →
      (i, os.map (·.name)) ∈ seen := by
    intro params c i seen h os hwt hsupp
    refine h os hwt (.inr rfl) fun l hl => ?_
    obtain ⟨j, hj, hm⟩ := hsupp l hl
    exact ⟨T.get j, List.mem_map_of_mem ((hf.layered.layer j).mp hj), hm⟩
  refine ⟨hf.init, fun a ha => ⟨hkeptA a ha, fun i hi => ?_⟩, fun ax hax => ⟨hkeptX ax hax, ?_⟩,
    fun a ha => ?_, fun ax hax => ?_, fun op i hop => hbind _ _ _ _ (hseenA op i hop),
    fun ax i hax => hbind _ _ _ _ (hseenX ax i hax), fun i hi => ?_⟩
  · exact hin i (.inl ⟨a, ha, hi⟩)
  · exact hin _ (.inr ⟨ax, hax, hkeptX ax hax, rfl⟩)
  · have hoff : a.pre.relaxedHolds f.layer = false := by simpa using (List.mem_filter.mp ha).2
    exact hoff
  · have hoff : ax.guard.relaxedHolds f.layer = false := by simpa using (List.mem_filter.mp hax).2
    exact hoff
  · exact (hf.support i hi).mono (AtomTable.Extends.refl T) (State.Sub.refl _)
      (List.subset_append_left _ _) (List.subset_append_left _ _)

/-- A round keeps the frontier tracked, with the whole layer as old atoms and the new atoms
appended; when it reaches no new atom, the frontier is saturated. -/
theorem Frontier.Tracks.round (hnd : (pb.objects.map (·.name)).Nodup)
    (hf : f.Tracks pb ids k first T)
    (hsa : ∀ x ∈ f.seenActions, x ∈ sa)
    (hna : ∀ op i, (op, i) ∈ pb.operators.zipIdx →
      ∀ args ∈ newBindings pb op.params op.pre f.reached first, (i, args.map Argument.name) ∈ sa)
    (hpa : ∀ a ∈ pa, a.AddsIn T)
    (hsx : ∀ x ∈ f.seenAxioms, x ∈ sx)
    (hnx : ∀ ax i, (ax, i) ∈ pb.axioms.zipIdx →
      ∀ args ∈ newBindings pb ax.params ax.cond f.reached first, (i, args.map Argument.name) ∈ sx)
    (hpx : ∀ ax ∈ px, ax.atom < T.size) :
    ∃ new, ((f.select sa pa sx px).reachAdded T).2 = new.length ∧
      ((f.select sa pa sx px).reachAdded T).1.Tracks pb (ids ++ new) ids.length false T ∧
      (new = [] → ((f.select sa pa sx px).reachAdded T).1.Saturated pb T) := by
  have hr := hf.layered.reached
  have htake : (ids.map T.get).take k = (ids.take k).map T.get := by rw [List.map_take]
  -- every binding the whole layer supports has been asked for
  have hseenA : ∀ op i, (op, i) ∈ pb.operators.zipIdx →
      BindingsSeen pb op.params op.pre i (ids.map T.get) false sa := fun op i hop =>
    BindingsSeen.round hnd hr (htake ▸ hf.seen_actions op i hop) hsa (hna op i hop)
  have hseenX : ∀ ax i, (ax, i) ∈ pb.axioms.zipIdx →
      BindingsSeen pb ax.params ax.cond i (ids.map T.get) false sx := fun ax i hax =>
    BindingsSeen.round hnd hr (htake ▸ hf.seen_axioms ax i hax) hsx (hnx ax i hax)
  obtain ⟨hvalidA, hvalidX⟩ := hf.select_valid sa sx hpa hpx
  have hlt := Frontier.added_lt_size (fun a ha => hvalidA a (List.mem_append_left _ ha))
    fun ax hax => hvalidX ax (List.mem_append_left _ hax)
  obtain ⟨new, hl, hc, hnew, hall, L, R, hfeq⟩ :=
    (hf.layered.select sa pa sx px).foldl_reachCount (c := 0) hlt
  refine ⟨new, by rw [Frontier.reachAdded, hc, Nat.zero_add], ?_, fun hnil => ?_⟩
  · rw [hfeq] at hl
    rw [Frontier.reachAdded, hfeq]
    have hsub : f.layer.Sub L := fun j hj =>
      (hl.layer j).mpr (List.mem_append_left _ ((hf.layered.layer j).mp hj))
    obtain ⟨hkeptA, hkeptX⟩ := hf.select_kept sa pa sx px
    refine ⟨hl, fun l hl' => ?_, fun i hi => ?_, fun a ha => Guard.relaxedHolds_mono hsub (hkeptA a ha),
      fun ax hax => Guard.relaxedHolds_mono hsub (hkeptX ax hax), hvalidA, hvalidX,
      fun op i hop => ?_, fun ax i hax => ?_⟩
    · obtain ⟨i, hi, hset⟩ := hf.init l hl'
      exact ⟨i, hi, hsub i hset⟩
    · rcases List.mem_append.mp ((hl.layer i).mp hi) with hi | hi
      · exact (hf.support i ((hf.layered.layer i).mpr hi)).mono (AtomTable.Extends.refl T) hsub
          (List.subset_append_left _ _) (List.subset_append_left _ _)
      · -- a new atom is one a kept action adds or the atom of a kept axiom
        rcases (Frontier.mem_added.mp (hnew i hi)).2 with ⟨a, ha, hi'⟩ | ⟨ax, hax, -, rfl⟩
        · exact .inr (.inl ⟨a, ha, a.relaxedAdds_mono hsub hi'⟩)
        · exact .inr (.inr ⟨ax, hax, rfl⟩)
    · rw [List.take_left]
      exact hseenA op i hop
    · rw [List.take_left]
      exact hseenX ax i hax
  · -- nothing new: every atom to reach was in the layer, so there was none
    have hadded : (f.select sa pa sx px).added = [] := by
      refine List.eq_nil_iff_forall_not_mem.mpr fun a ha => ?_
      have hin := hall a ha
      rw [hnil, List.append_nil] at hin
      have hoff : f.layer.isSet a = false := (Frontier.mem_added.mp ha).1
      rw [(hf.layered.layer a).mpr hin] at hoff
      cases hoff
    rw [Frontier.reachAdded, hadded]
    exact hf.saturated_select hseenA hseenX hadded

end Round

/-- The atoms of a tracked layer are at most as many as the atoms a problem can have. -/
theorem Frontier.Tracks.length_le {pb : Problem} {f : Frontier} {ids : List AtomId} {k : Nat}
    {first : Bool} {T : AtomTable} (h : f.Tracks pb ids k first T) (hT : pb.TableInUniverse T) :
    ids.length ≤ Grounder.atomBound pb := by
  have hsub : ids.Subperm (List.range T.size) :=
    List.subperm_of_subset h.layered.nodup fun j hj => List.mem_range.mpr (h.layered.lt_size j hj)
  calc ids.length ≤ (List.range T.size).length := hsub.length_le
    _ = T.atoms.length := List.length_range
    _ ≤ Grounder.atomBound pb := Problem.length_le_atomBound hT.1 hT.2

/-! ## The atoms of the initial state -/

/-- The frontier while the atoms of the initial state are reached, the table being `T`: only the
layer and the reached atoms have changed; the layer holds the atoms of the literals `done`, each
of them an atom of the initial state, and no atom counts as old. -/
def Frontier.InitReached (pb : Problem) (done : List Literal) (f : Frontier) (T : AtomTable) :
    Prop :=
  (∃ ids, f.Layered T ids 0) ∧ (∀ l ∈ done, ∃ i, T.Numbers l i ∧ f.layer.isSet i = true) ∧
    (∀ i, f.layer.isSet i = true → ∃ l ∈ pb.init, T.Numbers l i) ∧
    ∃ L R, f = { layer := L, reached := R }

namespace Frontier.InitReached

variable {pb : Problem} {done : List Literal} {f : Frontier} {T : AtomTable}

theorem empty (pb : Problem) (T : AtomTable) : ({} : Frontier).InitReached pb [] T := by
  refine ⟨⟨[], ⟨List.nodup_nil, nofun, fun j => ?_, Reached.records_empty, Nat.le_refl 0⟩⟩, nofun,
    fun i hi => ?_, {}, {}, rfl⟩
  · simp [State.isSet]
  · simp [State.isSet] at hi

theorem extend (h : f.InitReached pb done T) {T' : AtomTable} (hT : T.Extends T') :
    f.InitReached pb done T' := by
  obtain ⟨⟨ids, hl⟩, hdone, hinit, hf⟩ := h
  refine ⟨⟨ids, hl.extend hT⟩, fun l hl' => ?_, fun i hi => ?_, hf⟩
  · obtain ⟨i, hi, hset⟩ := hdone l hl'
    exact ⟨i, hi.extend hT, hset⟩
  · obtain ⟨l, hl', hn⟩ := hinit i hi
    exact ⟨l, hl', hn.extend hT⟩

/-- Reaching the atom of one more literal of the initial state. -/
theorem reachIn (h : f.InitReached pb done T) {l : Literal} (hl : l ∈ pb.init) {a : AtomId}
    (ha : T.Numbers l a) : (f.reachIn T a).1.InitReached pb (done ++ [l]) T := by
  obtain ⟨⟨ids, hlay⟩, hdone, hinit, L, R, rfl⟩ := h
  cases hset : ({ layer := L, reached := R } : Frontier).layer.isSet a with
  | true =>
      simp only [Frontier.reachIn, hset, ↓reduceIte]
      refine ⟨⟨ids, hlay⟩, fun l' hl' => ?_, hinit, L, R, rfl⟩
      rcases List.mem_append.mp hl' with hl' | hl'
      · exact hdone l' hl'
      · rw [List.mem_singleton.mp hl']
        exact ⟨a, ha, hset⟩
  | false =>
      have hnew := hlay.reachIn ha.lt_size hset
      simp only [Frontier.reachIn, hset, Bool.false_eq_true, ↓reduceIte] at hnew ⊢
      refine ⟨⟨ids ++ [a], hnew⟩, fun l' hl' => ?_, fun i hi => ?_, L.add a, R.add (T.get a), rfl⟩
      · rcases List.mem_append.mp hl' with hl' | hl'
        · obtain ⟨i, hi, hs⟩ := hdone l' hl'
          exact ⟨i, hi, (State.isSet_add_iff _ _ _).mpr (.inr hs)⟩
        · rw [List.mem_singleton.mp hl']
          exact ⟨a, ha, (State.isSet_add_iff _ _ _).mpr (.inl rfl)⟩
      · rcases (State.isSet_add_iff _ _ _).mp hi with rfl | hi
        · exact ⟨l, hl, ha⟩
        · exact hinit i hi

end Frontier.InitReached

namespace Grounder

open GroundM

variable {pb : Problem}

end Grounder

end Pddl
