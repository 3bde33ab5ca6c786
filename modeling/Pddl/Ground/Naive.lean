import Pddl.Ground.Instantiate
/-!
# Grounding every instance

The naive strategy numbers the atoms of every declared predicate over every well-typed binding
first, then instantiates every operator and every axiom with every well-typed binding, in order,
keeping the instances whose condition can hold. Instances that no reachable state allows are
kept too.
-/

namespace Pddl

namespace Grounder

/-- The instances of the schemas over every binding of their parameters, in order. -/
def instantiateAll {α β : Type} (pb : Problem) (schemas : List α) (params : α → List Param)
    (inst : α → List Argument → GroundM (Option β)) : GroundM (List β) :=
  schemas.foldlM (fun acc s =>
    (pb.bindings (params s)).foldlM (fun acc args => do
      match ← inst s args with
      | some b => pure (acc ++ [b])
      | none => pure acc) acc) []

/-- The ground problem of every instance. -/
def groundNaive (pb : Problem) : GroundM (GroundProblem × List String) := do
  for p in pb.declaredPredicates do
    for args in pb.bindings p.params do
      let _ ← intern ⟨p.name, args.map Argument.name⟩
  let actions ← instantiateAll pb pb.operators (·.params) (action pb)
  let axioms ← instantiateAll pb pb.axioms (·.params) (axiomInstance pb)
  finish pb actions axioms

end Grounder

end Pddl
