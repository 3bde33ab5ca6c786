import Pddl.Proofs.Search.Complete
/-!
# The expansion limit

An expansion limit cuts the search short and changes nothing else. Without a limit, each round
of the search takes a node and expands it, the round that meets a goal included; `expandedIn`
counts these rounds, and `expansionCount` is the count of the whole search, which expands no
node when the initial state is a goal. With the limit `n`, the check stands between taking a
node and expanding it, so:

* while the search without a limit expands at most `n` nodes, every round passes the check and
  the two searches go round for round alike (`searchRounds_limit_of_le`);
* otherwise the round that takes the node after the `n`-th expansion stops with `limitReached`
  (`searchRounds_limit_of_lt`).

Since the search without a limit never gives up, the limited search answers `limitReached`
exactly when the unlimited one expands more than `n` nodes, and gives the unlimited answer
otherwise (`search_limit_eq`). It needs no more than `n + 1` rounds, whatever the size of the
state space (`searchRounds_limit_fuel`).
-/

namespace Pddl

namespace GroundProblem

variable {gp : GroundProblem} {strategy : SearchStrategy} {n : Nat}

/-- The number of nodes that rounds of the search expand when nothing limits them, with at most
`fuel` rounds: every round that takes a node expands it, the one that meets a goal included. -/
def expandedIn (gp : GroundProblem) (strategy : SearchStrategy) : Nat → SearchFrontier → Nat
  | 0, _ => 0
  | fuel + 1, f =>
      match takeNode strategy f.openNodes with
      | none => 0
      | some (node, rest) =>
          match gp.expand node rest f.closed with
          | (_, _, some _) => 1
          | (nodes, closed, none) =>
              gp.expandedIn strategy fuel ⟨nodes, closed, f.expansions + 1⟩ + 1

/-- The number of nodes the search expands without a limit: none when the initial state is a
goal. -/
def expansionCount (gp : GroundProblem) (strategy : SearchStrategy) : Nat :=
  if gp.isGoal gp.init then 0
  else
    gp.expandedIn strategy ((gp.widthBound + 1) * Nat.pow 2 gp.widthBound + 1)
      ⟨[⟨gp.init, []⟩], [gp.init], 0⟩

/-- While the rounds without a limit expand no more than the limit allows, the limit is never
met and the rounds go alike. -/
theorem searchRounds_limit_of_le :
    ∀ (fuel : Nat) (f : SearchFrontier), f.expansions + gp.expandedIn strategy fuel f ≤ n →
      gp.searchRounds strategy (some n) fuel f = gp.searchRounds strategy none fuel f
  | 0, _, _ => rfl
  | fuel + 1, f, h => by
      cases htake : takeNode strategy f.openNodes with
      | none => simp [searchRounds, htake]
      | some taken =>
          obtain ⟨node, rest⟩ := taken
          rcases hexp : gp.expand node rest f.closed with ⟨nodes, closed, _ | path⟩
          · simp only [expandedIn, htake, hexp] at h
            -- the node taken is expanded below the limit
            have hbelow : ¬ f.expansions ≥ n := by omega
            simp only [searchRounds, htake, hexp, Option.any_some, Option.any_none, hbelow,
              decide_false, Bool.false_eq_true, if_false]
            exact searchRounds_limit_of_le fuel _ (by simp only; omega)
          · simp only [expandedIn, htake, hexp] at h
            have hbelow : ¬ f.expansions ≥ n := by omega
            simp [searchRounds, htake, hexp, hbelow]

/-- Once the rounds without a limit would expand more than the limit allows, the limited rounds
stop at the limit. -/
theorem searchRounds_limit_of_lt :
    ∀ (fuel : Nat) (f : SearchFrontier), f.expansions ≤ n →
      n < f.expansions + gp.expandedIn strategy fuel f →
      gp.searchRounds strategy (some n) fuel f = .limitReached
  | 0, _, _, _ => rfl
  | fuel + 1, f, hle, hlt => by
      cases htake : takeNode strategy f.openNodes with
      | none =>
          -- no node is left to expand, so the count has nothing to add
          simp only [expandedIn, htake] at hlt
          omega
      | some taken =>
          obtain ⟨node, rest⟩ := taken
          by_cases hat : f.expansions ≥ n
          · simp [searchRounds, htake, hat]
          · rcases hexp : gp.expand node rest f.closed with ⟨nodes, closed, _ | path⟩
            · simp only [expandedIn, htake, hexp] at hlt
              simp only [searchRounds, htake, hexp, Option.any_some, hat, decide_false,
                Bool.false_eq_true, if_false]
              exact searchRounds_limit_of_lt fuel _ (by simp only; omega) (by simp only; omega)
            · -- a goal met by the node taken would be the last expansion, within the limit
              simp only [expandedIn, htake, hexp] at hlt
              omega

/-- With the limit `n`, rounds that have expanded at most `n` nodes need no more than `n + 1`
rounds in all: more fuel gives the same answer. -/
theorem searchRounds_limit_fuel :
    ∀ (fuel : Nat) (f : SearchFrontier), f.expansions ≤ n → n < f.expansions + fuel →
      ∀ fuel', fuel ≤ fuel' →
        gp.searchRounds strategy (some n) fuel' f = gp.searchRounds strategy (some n) fuel f
  | 0, _, hle, hlt, _, _ => by omega
  | fuel + 1, f, hle, hlt, fuel' + 1, hfuel => by
      cases htake : takeNode strategy f.openNodes with
      | none => simp [searchRounds, htake]
      | some taken =>
          obtain ⟨node, rest⟩ := taken
          by_cases hat : f.expansions ≥ n
          · simp [searchRounds, htake, hat]
          · rcases hexp : gp.expand node rest f.closed with ⟨nodes, closed, _ | path⟩
            · simp only [searchRounds, htake, hexp, Option.any_some, hat, decide_false,
                Bool.false_eq_true, if_false]
              exact searchRounds_limit_fuel fuel _ (by simp only; omega) (by simp only; omega)
                fuel' (by omega)
            · simp [searchRounds, htake, hexp, hat]

/-- Rounds that end before their fuel runs out end the same way with more fuel. -/
theorem searchRounds_more_fuel {limit : Option Nat} :
    ∀ (fuel : Nat) (f : SearchFrontier), gp.searchRounds strategy limit fuel f ≠ .limitReached →
      ∀ fuel', fuel ≤ fuel' →
        gp.searchRounds strategy limit fuel' f = gp.searchRounds strategy limit fuel f
  | 0, _, h, _, _ => absurd rfl h
  | fuel + 1, f, h, fuel' + 1, hfuel => by
      cases htake : takeNode strategy f.openNodes with
      | none => simp [searchRounds, htake]
      | some taken =>
          obtain ⟨node, rest⟩ := taken
          by_cases hat : limit.any (f.expansions ≥ ·) = true
          · simp [searchRounds, htake, hat]
          · rcases hexp : gp.expand node rest f.closed with ⟨nodes, closed, _ | path⟩
            · simp only [searchRounds, htake, hexp, hat, Bool.false_eq_true, if_false] at h ⊢
              exact searchRounds_more_fuel fuel _ h fuel' (by omega)
            · simp [searchRounds, htake, hexp, hat]

/-- No more nodes are expanded than there are rounds. -/
theorem expandedIn_le : ∀ (fuel : Nat) (f : SearchFrontier), gp.expandedIn strategy fuel f ≤ fuel
  | 0, _ => Nat.le_refl 0
  | fuel + 1, f => by
      simp only [expandedIn]
      split
      · omega
      · split
        · omega
        · have := expandedIn_le fuel ⟨‹_›, ‹_›, f.expansions + 1⟩
          omega

/-- The search with the expansion limit `n` stops at the limit exactly when the search without a
limit expands more than `n` nodes; otherwise it gives the same answer. -/
theorem search_limit_eq (cfg : Config) (n : Nat) :
    gp.search { cfg with maxExpansions := some n } =
      if n < gp.expansionCount cfg.search then .limitReached
      else gp.search { cfg with maxExpansions := none } := by
  cases hinit : gp.isGoal gp.init
  · simp only [search, expansionCount, hinit, Bool.false_eq_true, if_false]
    split
    · exact searchRounds_limit_of_lt _ _ (Nat.zero_le n) (by simpa using ‹_›)
    · exact searchRounds_limit_of_le _ _ (by simp only; omega)
  · simp [search, expansionCount, hinit]

end GroundProblem

open GroundProblem in
/-- An expansion limit only cuts the search short. For every ground problem, strategy and limit
`n`, the search stops with `limitReached` exactly when the search without a limit expands more
than `n` nodes, and otherwise returns what the search without a limit returns, which is never
`limitReached`. With the limit, `n + 1` rounds of the search decide its answer, whatever the size
of the state space. -/
theorem search_with_expansion_limit (gp : GroundProblem) (cfg : Config) (n : Nat) :
    (gp.search { cfg with maxExpansions := some n } = .limitReached ↔
      n < gp.expansionCount cfg.search) ∧
    (gp.expansionCount cfg.search ≤ n →
      gp.search { cfg with maxExpansions := some n } =
        gp.search { cfg with maxExpansions := none }) ∧
    gp.search { cfg with maxExpansions := none } ≠ .limitReached ∧
    (gp.isGoal gp.init = false →
      gp.searchRounds cfg.search (some n) (n + 1) ⟨[⟨gp.init, []⟩], [gp.init], 0⟩ =
        gp.search { cfg with maxExpansions := some n }) := by
  have hfree : gp.search { cfg with maxExpansions := none } ≠ .limitReached :=
    search_ne_limitReached rfl
  refine ⟨?_, fun hle => ?_, hfree, fun hinit => ?_⟩
  · rw [search_limit_eq]
    split
    · exact iff_of_true rfl ‹_›
    · exact iff_of_false hfree ‹_›
  · rw [search_limit_eq, if_neg (by omega)]
  · simp only [search, hinit, Bool.false_eq_true, if_false] at hfree ⊢
    rcases Nat.lt_or_ge n ((gp.widthBound + 1) * Nat.pow 2 gp.widthBound + 1) with hbig | hsmall
    · -- the search's own fuel covers the `n + 1` rounds
      exact (searchRounds_limit_fuel (n + 1) _ (Nat.zero_le n) (by simp only; omega) _ hbig).symm
    · -- the search's own fuel is less: it ends before the limit, as the search without one
      have hcount : gp.expandedIn cfg.search ((gp.widthBound + 1) * Nat.pow 2 gp.widthBound + 1)
          ⟨[⟨gp.init, []⟩], [gp.init], 0⟩ ≤ (gp.widthBound + 1) * Nat.pow 2 gp.widthBound + 1 :=
        expandedIn_le _ _
      have hsame : gp.searchRounds cfg.search (some n)
          ((gp.widthBound + 1) * Nat.pow 2 gp.widthBound + 1) ⟨[⟨gp.init, []⟩], [gp.init], 0⟩ =
          gp.searchRounds cfg.search none
            ((gp.widthBound + 1) * Nat.pow 2 gp.widthBound + 1) ⟨[⟨gp.init, []⟩], [gp.init], 0⟩ :=
        searchRounds_limit_of_le _ _ (by rw [Nat.zero_add]; omega)
      rw [← hsame] at hfree
      exact searchRounds_more_fuel _ _ hfree (n + 1) (by omega)

/-- The lamp is switched on by expanding the initial state alone: no expansion allowed stops the
search, one is enough for the plan. -/
theorem lamp_search_needs_one_expansion :
    lampProblem.expansionCount .breadthFirst = 1 ∧
    lampProblem.search { maxExpansions := some 0 } = .limitReached ∧
    lampProblem.search { maxExpansions := some 1 } = .solved ⟨[switchOn]⟩ := by
  have hcount : lampProblem.expansionCount .breadthFirst = 1 := by decide
  have hsolved : lampProblem.search {} = .solved ⟨[switchOn]⟩ := by decide
  refine ⟨hcount, (search_with_expansion_limit lampProblem {} 0).1.mpr (by rw [hcount]; decide), ?_⟩
  rw [← hsolved]
  exact (search_with_expansion_limit lampProblem {} 1).2.1 (by rw [hcount])

end Pddl
