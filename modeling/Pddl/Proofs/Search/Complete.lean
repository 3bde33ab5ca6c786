import Pddl.Proofs.Search.Sound
/-!
# The search is complete, terminates, and breadth-first plans are shortest

Between two rounds the search keeps an invariant (`Explored`): the closed states are distinct,
reached from the initial state and not goals, each open node is reached by its plan, and every
closed state is the state of an open node or has all its successors closed. When no node is left,
the closed states contain the initial state and are closed under the steps of the problem, so no
run reaches a goal: the search finds a problem unsolvable only when it is
(`searchRounds_unsolvable`).

Without an expansion limit the search never gives up: each round lowers `leftToSearch`, the room
left for closed states plus the open nodes, since a round takes one open node and adds as many open
nodes as closed states; and the closed states, distinct and no wider than `widthBound`, fit in that
room (`searchRounds_ne_limitReached`).

Breadth-first, the open nodes moreover come in layers (`Layered`): sorted by depth, within one step
of a level `d`, with every state that a run of at most `d` steps reaches already closed, and no node
deeper than a run to its state. A goal met by expanding a node of depth `e` is one step deeper, and
no run of at most `e` steps reaches a goal, since every state it reaches was closed before
(`searchRounds_breadthFirst_shortest`).
-/

namespace Pddl

namespace GroundProblem

variable {gp : GroundProblem}

/-- What the search knows between two rounds. -/
structure Explored (gp : GroundProblem) (f : SearchFrontier) : Prop where
  nodup : f.closed.Nodup
  reached : ∀ s ∈ f.closed, ∃ as, gp.Runs gp.init as s
  notGoal : ∀ s ∈ f.closed, gp.isGoal s = false
  init_mem : gp.init ∈ f.closed
  runs : gp.OpenRuns f.openNodes
  /-- A closed state waits in an open node, or all its successors are closed. -/
  closure : ∀ s ∈ f.closed, (∃ n ∈ f.openNodes, n.state = s) ∨
    ∀ a ∈ gp.actions, a.isApplicable s = true → gp.successor s a ∈ f.closed

/-- The search starts from the root alone, when the initial state is not a goal. -/
theorem explored_root (hinit : gp.isGoal gp.init = false) :
    gp.Explored ⟨[⟨gp.init, []⟩], [gp.init], 0⟩ where
  nodup := List.nodup_singleton _
  reached := by
    intro s hs
    rw [List.mem_singleton.mp hs]
    exact ⟨[], .nil _⟩
  notGoal := by
    intro s hs
    rw [List.mem_singleton.mp hs]
    exact hinit
  init_mem := List.mem_singleton_self _
  runs := openRuns_root
  closure := fun s hs => .inl ⟨⟨gp.init, []⟩, List.mem_singleton_self _, (List.mem_singleton.mp hs).symm⟩

/-- A round that meets no goal keeps the invariant. -/
theorem Explored.next {strategy : SearchStrategy} {f : SearchFrontier} {node : SearchNode}
    {rest nodes : List SearchNode} {closed : List State} (hf : gp.Explored f)
    (htake : takeNode strategy f.openNodes = some (node, rest))
    (hexp : gp.expand node rest f.closed = (nodes, closed, none)) (k : Nat) :
    gp.Explored ⟨nodes, closed, k⟩ := by
  have hperm := takeNode_perm htake
  have hnode := mem_of_takeNode htake
  have hruns := hf.runs.expand htake hexp
  obtain ⟨kids, rfl, rfl, hkids, hnd, hsucc⟩ := expand_eq_none hexp
  -- the closed states are those of the children, then the old ones
  have hmem : ∀ s, s ∈ (kids.map (·.state)).reverse ++ f.closed ↔
      (∃ c ∈ kids, c.state = s) ∨ s ∈ f.closed := by
    intro s
    simp
  refine ⟨hnd hf.nodup, ?_, ?_, List.mem_append_right _ hf.init_mem, hruns, ?_⟩
  · intro s hs
    rcases (hmem s).mp hs with ⟨c, hc, rfl⟩ | hs
    · exact ⟨_, (hkids c hc).1.runs (hf.runs node hnode)⟩
    · exact hf.reached s hs
  · intro s hs
    rcases (hmem s).mp hs with ⟨c, hc, rfl⟩ | hs
    · exact (hkids c hc).2
    · exact hf.notGoal s hs
  · intro s hs
    rcases (hmem s).mp hs with ⟨c, hc, rfl⟩ | hs
    · exact .inl ⟨c, List.mem_append_right _ hc, rfl⟩
    · rcases hf.closure s hs with ⟨n, hn, rfl⟩ | hall
      · -- the node taken has all its successors closed now; the others are still open
        rcases List.mem_cons.mp (hperm.mem_iff.mp hn) with rfl | hn
        · exact .inr hsucc
        · exact .inl ⟨n, List.mem_append_left _ hn, rfl⟩
      · exact .inr fun a ha happ => List.mem_append_right _ (hall a ha happ)

/-- The closed states fit in the room that the width bound leaves. -/
theorem Explored.length_closed_le {f : SearchFrontier} (hf : gp.Explored f) :
    f.closed.length ≤ (gp.widthBound + 1) * 2 ^ gp.widthBound :=
  length_le_of_width_le hf.nodup fun s hs => by
    obtain ⟨as, hrun⟩ := hf.reached s hs
    exact hrun.width_le

/-- What is left to search: the room left for closed states, and the open nodes. -/
def leftToSearch (gp : GroundProblem) (f : SearchFrontier) : Nat :=
  (gp.widthBound + 1) * 2 ^ gp.widthBound - f.closed.length + f.openNodes.length

/-- A round that meets no goal lowers what is left to search by one. -/
theorem Explored.leftToSearch_next {strategy : SearchStrategy} {f : SearchFrontier}
    {node : SearchNode} {rest nodes : List SearchNode} {closed : List State} (hf : gp.Explored f)
    (htake : takeNode strategy f.openNodes = some (node, rest))
    (hexp : gp.expand node rest f.closed = (nodes, closed, none)) (k : Nat) :
    gp.leftToSearch ⟨nodes, closed, k⟩ + 1 = gp.leftToSearch f := by
  have hroom := (hf.next htake hexp k).length_closed_le
  have hlen := (takeNode_perm htake).length_eq
  obtain ⟨kids, rfl, rfl, -, -, -⟩ := expand_eq_none hexp
  simp only [leftToSearch, List.length_append, List.length_reverse, List.length_map,
    List.length_cons] at hroom hlen ⊢
  omega

/-- Without an expansion limit, rounds of the search with more fuel than is left to search never
give up. -/
theorem searchRounds_ne_limitReached {strategy : SearchStrategy} :
    ∀ (fuel : Nat) (f : SearchFrontier), gp.Explored f → gp.leftToSearch f < fuel →
      gp.searchRounds strategy none fuel f ≠ .limitReached := by
  intro fuel
  induction fuel with
  | zero => intro f _ hfuel; omega
  | succ fuel ih =>
      intro f hf hfuel h
      simp only [searchRounds, Option.any_none, Bool.false_eq_true, if_false] at h
      split at h
      · cases h
      · rename_i node rest htake
        split at h
        · cases h
        · rename_i nodes closed hexp
          have := hf.leftToSearch_next htake hexp (f.expansions + 1)
          exact ih _ (hf.next htake hexp _) (by omega) h

/-- When no node is left open, the closed states contain the initial state and are closed under
every step, so no run reaches a goal. -/
theorem Explored.not_goal_of_empty {f : SearchFrontier} (hf : gp.Explored f)
    (hopen : f.openNodes = []) : ∀ as t, gp.Runs gp.init as t → gp.isGoal t = false := by
  have hstep : ∀ s a, s ∈ f.closed → a ∈ gp.actions → a.isApplicable s = true →
      gp.successor s a ∈ f.closed := by
    intro s a hs ha happ
    rcases hf.closure s hs with ⟨n, hn, -⟩ | hall
    · rw [hopen] at hn
      cases hn
    · exact hall a ha happ
  intro as t hrun
  exact hf.notGoal t (hrun.preserves hstep hf.init_mem)

/-- Rounds of the search find a problem unsolvable only when no run reaches a goal. -/
theorem searchRounds_unsolvable {strategy : SearchStrategy} {limit : Option Nat} :
    ∀ (fuel : Nat) (f : SearchFrontier), gp.Explored f →
      gp.searchRounds strategy limit fuel f = .unsolvable →
      ∀ as t, gp.Runs gp.init as t → gp.isGoal t = false := by
  intro fuel f hf h
  exact searchRounds_invariant gp.Explored
    (fun r => r = .unsolvable → ∀ as t, gp.Runs gp.init as t → gp.isGoal t = false)
    (fun hf htake hexp => hf.next htake hexp _) (fun _ _ _ h => by cases h)
    (fun hf hopen _ => hf.not_goal_of_empty hopen) (fun h => by cases h) fuel f hf h

/-- The breadth-first invariant at level `d`. -/
structure Layered (gp : GroundProblem) (d : Nat) (f : SearchFrontier) : Prop where
  sorted : f.openNodes.Pairwise fun m n => m.path.length ≤ n.path.length
  depth : ∀ n ∈ f.openNodes, d ≤ n.path.length ∧ n.path.length ≤ d + 1
  /-- Every state within `d` steps is closed. -/
  near : ∀ as s, gp.Runs gp.init as s → as.length ≤ d → s ∈ f.closed
  /-- No run reaches the state of an open node in fewer steps than its path. -/
  shortest : ∀ n ∈ f.openNodes, ∀ as, gp.Runs gp.init as n.state → n.path.length ≤ as.length

theorem layered_root : gp.Layered 0 ⟨[⟨gp.init, []⟩], [gp.init], 0⟩ where
  sorted := List.pairwise_singleton _ _
  depth := by
    intro n hn
    rw [List.mem_singleton.mp hn]
    simp
  near := by
    intro as s hrun hlen
    rw [List.length_eq_zero_iff.mp (Nat.le_zero.mp hlen)] at hrun
    rw [runs_nil_iff.mp hrun]
    exact List.mem_singleton_self _
  shortest := by
    intro n hn as _
    rw [List.mem_singleton.mp hn]
    simp

/-- The first open node is the shallowest. -/
theorem Layered.first_le {d : Nat} {f : SearchFrontier} {node : SearchNode}
    {rest : List SearchNode} (hl : gp.Layered d f) (hopen : f.openNodes = node :: rest) :
    ∀ m ∈ f.openNodes, node.path.length ≤ m.path.length := by
  have hsorted := hl.sorted
  rw [hopen, List.pairwise_cons] at hsorted
  intro m hm
  rw [hopen] at hm
  rcases List.mem_cons.mp hm with rfl | hm
  · exact Nat.le_refl _
  · exact hsorted.1 m hm

/-- Every state within the depth of the first open node is closed: a run one step beyond the
level ends with a step from a closed state that no open node holds, all of them being deeper. -/
theorem Layered.near_first {d : Nat} {f : SearchFrontier} {node : SearchNode}
    {rest : List SearchNode} (hf : gp.Explored f) (hl : gp.Layered d f)
    (hopen : f.openNodes = node :: rest) :
    ∀ as s, gp.Runs gp.init as s → as.length ≤ node.path.length → s ∈ f.closed := by
  intro as s hrun hlen
  have hnode := hl.depth node (by rw [hopen]; exact List.mem_cons_self)
  rcases Nat.lt_or_ge d as.length with hd | hd
  · obtain ⟨bs, a, rfl⟩ : ∃ bs a, as = bs ++ [a] := by
      rcases List.eq_nil_or_concat as with rfl | ⟨bs, a, rfl⟩
      · simp at hd
      · exact ⟨bs, a, by simp⟩
    obtain ⟨t, hbs, ha, happ, rfl⟩ := hrun.split_last
    simp only [List.length_append, List.length_singleton] at hd hlen
    have ht := hl.near bs t hbs (by omega)
    rcases hf.closure t ht with ⟨m, hm, rfl⟩ | hall
    · -- an open node at `m.state` is at least as deep as the first, deeper than `bs`
      have hfirst := hl.first_le hopen m hm
      have := hl.shortest m hm bs hbs
      omega
    · exact hall a ha happ
  · exact hl.near as s hrun hd

/-- A breadth-first round that meets no goal keeps the layers, at the depth of the node taken. -/
theorem Layered.next {d : Nat} {f : SearchFrontier} {node : SearchNode}
    {rest nodes : List SearchNode} {closed : List State} (hf : gp.Explored f)
    (hl : gp.Layered d f) (hopen : f.openNodes = node :: rest)
    (hexp : gp.expand node rest f.closed = (nodes, closed, none)) (k : Nat) :
    gp.Layered node.path.length ⟨nodes, closed, k⟩ := by
  have hnear := hl.near_first hf hopen
  have hnode := hl.depth node (by rw [hopen]; exact List.mem_cons_self)
  have hsorted := hl.sorted
  rw [hopen, List.pairwise_cons] at hsorted
  have hrest : ∀ r ∈ rest, node.path.length ≤ r.path.length ∧ r.path.length ≤ d + 1 := by
    intro r hr
    have hmem : r ∈ f.openNodes := by rw [hopen]; exact List.mem_cons_of_mem _ hr
    exact ⟨hl.first_le hopen r hmem, (hl.depth r hmem).2⟩
  obtain ⟨kids, rfl, rfl, hkids, hnd, -⟩ := expand_eq_none hexp
  have hkid : ∀ c ∈ kids, c.path.length = node.path.length + 1 :=
    fun c hc => (hkids c hc).1.length_path
  -- the children hold states that were not closed before
  have hfresh : ∀ c ∈ kids, c.state ∉ f.closed := by
    intro c hc hmem
    refine (List.nodup_append.mp (hnd hf.nodup)).2.2 c.state ?_ c.state hmem rfl
    simpa using ⟨c, hc, rfl⟩
  refine ⟨?_, ?_, ?_, ?_⟩
  · refine List.pairwise_append.mpr ⟨hsorted.2, ?_, ?_⟩
    · refine List.pairwise_of_forall_mem_list fun a ha b hb => ?_
      rw [hkid a ha, hkid b hb]
    · intro r hr c hc
      have := hrest r hr
      have := hkid c hc
      omega
  · intro n hn
    rcases List.mem_append.mp hn with hn | hn
    · have := hrest n hn
      omega
    · have := hkid n hn
      omega
  · intro as s hrun hlen
    exact List.mem_append_right _ (hnear as s hrun hlen)
  · intro n hn as hrun
    rcases List.mem_append.mp hn with hn | hn
    · exact hl.shortest n (by rw [hopen]; exact List.mem_cons_of_mem _ hn) as hrun
    · rw [hkid n hn]
      rcases Nat.lt_or_ge node.path.length as.length with hlt | hge
      · exact hlt
      · exact absurd (hnear as n.state hrun hge) (hfresh n hn)

/-- A plan that breadth-first rounds return is no longer than any run to a goal. -/
theorem searchRounds_breadthFirst_shortest {limit : Option Nat} {p : Plan} :
    ∀ (fuel d : Nat) (f : SearchFrontier), gp.Explored f → gp.Layered d f →
      gp.searchRounds .breadthFirst limit fuel f = .solved p →
      ∀ as t, gp.Runs gp.init as t → gp.isGoal t = true → p.length ≤ as.length := by
  intro fuel d f hf hl h
  refine searchRounds_invariant (fun f => gp.Explored f ∧ ∃ d, gp.Layered d f)
    (fun r => ∀ p, r = .solved p →
      ∀ as t, gp.Runs gp.init as t → gp.isGoal t = true → p.length ≤ as.length)
    (fun ⟨hf, _, hl⟩ htake hexp =>
      ⟨hf.next htake hexp _, _, hl.next hf (takeNode_breadthFirst.mp htake) hexp _⟩)
    ?_ (fun _ _ _ h => by cases h) (fun _ h => by cases h) fuel f ⟨hf, d, hl⟩ p h
  -- the goal is a child of the node, one step deeper; shorter runs end in closed states
  intro f node rest nodes closed path ⟨hf, d, hl⟩ htake hexp p h as t hrun hgoal
  cases h
  obtain ⟨child, hchild, rfl, -⟩ := expand_eq_some hexp
  rw [length_planOf, hchild.length_path]
  rcases Nat.lt_or_ge node.path.length as.length with hlt | hge
  · exact hlt
  · have := hf.notGoal t (hl.near_first hf (takeNode_breadthFirst.mp htake) as t hrun hge)
    rw [hgoal] at this
    cases this

theorem search_eq_searchRounds (hinit : gp.isGoal gp.init = false) (cfg : Config) :
    gp.search cfg = gp.searchRounds cfg.search cfg.maxExpansions
      ((gp.widthBound + 1) * 2 ^ gp.widthBound + 1) ⟨[⟨gp.init, []⟩], [gp.init], 0⟩ := by
  simp [search, hinit]

/-- Without an expansion limit the search does not give up. -/
theorem search_ne_limitReached {cfg : Config} (hlim : cfg.maxExpansions = none) :
    gp.search cfg ≠ .limitReached := by
  cases hinit : gp.isGoal gp.init
  · rw [search_eq_searchRounds hinit, hlim]
    refine searchRounds_ne_limitReached _ _ (explored_root hinit) ?_
    have := (explored_root hinit).length_closed_le
    simp only [leftToSearch, List.length_singleton] at this ⊢
    omega
  · simp [search, hinit]

/-- The search finds a problem unsolvable exactly when no run reaches a goal. -/
theorem search_eq_unsolvable_iff {cfg : Config} (hlim : cfg.maxExpansions = none) :
    gp.search cfg = .unsolvable ↔ ¬ ∃ as t, gp.Runs gp.init as t ∧ gp.isGoal t = true := by
  constructor
  · rintro h ⟨as, t, hrun, hgoal⟩
    cases hinit : gp.isGoal gp.init
    · rw [search_eq_searchRounds hinit] at h
      have := searchRounds_unsolvable _ _ (explored_root hinit) h as t hrun
      rw [hgoal] at this
      cases this
    · simp [search, hinit] at h
  · intro hno
    cases h : gp.search cfg with
    | solved p =>
        obtain ⟨t, hrun, hgoal⟩ := search_solved_runs h
        exact absurd ⟨_, t, hrun, hgoal⟩ hno
    | unsolvable => rfl
    | limitReached => exact absurd h (search_ne_limitReached hlim)

/-- A plan that breadth-first search returns is no longer than any run to a goal. -/
theorem search_breadthFirst_shortest {cfg : Config} (hbfs : cfg.search = .breadthFirst)
    {p : Plan} (h : gp.search cfg = .solved p) :
    ∀ as t, gp.Runs gp.init as t → gp.isGoal t = true → p.length ≤ as.length := by
  cases hinit : gp.isGoal gp.init
  · rw [search_eq_searchRounds hinit, hbfs] at h
    exact searchRounds_breadthFirst_shortest _ 0 _ (explored_root hinit) layered_root h
  · simp only [search, hinit, if_true, SearchResult.solved.injEq] at h
    subst h
    intro as t _ _
    simp [Plan.length]

end GroundProblem

/-- Without an expansion limit the search ends with a verdict under both strategies; it finds a
problem unsolvable exactly when no sequence of the problem's actions, each applicable where the
ones before it lead, reaches a goal; and breadth-first, the plan it returns is a shortest such
sequence, so the validator refuses every shorter sequence of the problem's actions. -/
theorem search_complete_and_breadth_first_shortest (gp : GroundProblem) (cfg : Config)
    (hlim : cfg.maxExpansions = none) :
    gp.search cfg ≠ .limitReached ∧
    (gp.search cfg = .unsolvable ↔ ¬ ∃ as t, gp.Runs gp.init as t ∧ gp.isGoal t = true) ∧
    (cfg.search = .breadthFirst → ∀ p, gp.search cfg = .solved p →
      (∃ t, gp.Runs gp.init p.actions t ∧ gp.isGoal t = true) ∧
      (∀ as t, gp.Runs gp.init as t → gp.isGoal t = true → p.length ≤ as.length) ∧
      ∀ as : List Action, (∀ a ∈ as, a ∈ gp.actions) → as.length < p.length →
        gp.validate ⟨as⟩ ≠ .ok ()) := by
  refine ⟨GroundProblem.search_ne_limitReached hlim, GroundProblem.search_eq_unsolvable_iff hlim,
    fun hbfs p h => ?_⟩
  have hshort := GroundProblem.search_breadthFirst_shortest hbfs h
  refine ⟨GroundProblem.search_solved_runs h, hshort, fun as hmem hlt hvalid => ?_⟩
  obtain ⟨t, hrun, hgoal⟩ := (GroundProblem.validate_eq_ok_iff hmem).mp hvalid
  have := hshort as t hrun hgoal
  omega

/-- The lamp is not lit without switching it on: the empty plan is refused. -/
theorem lamp_needs_switching :
    ({} : Config).maxExpansions = none ∧ lampProblem.validate ⟨[]⟩ ≠ .ok () := by
  have hsolved : lampProblem.search {} = .solved ⟨[switchOn]⟩ := by decide
  have hshortest := (search_complete_and_breadth_first_shortest lampProblem {} rfl).2.2 rfl _ hsolved
  exact ⟨rfl, hshortest.2.2 [] (by simp) (by decide)⟩

end Pddl
