import Pddl.Text.Blank
import Pddl.Text.Quoted
import Pddl.Number.Integer
import Pddl.Number.Binary64
import Pddl.Number.Shortest
import Pddl.Number.Scale
import Pddl.Model.TypeHierarchy
import Pddl.Model.Schema
import Pddl.Model.Error
import Pddl.Condition.Basic
import Pddl.Condition.Numeric
import Pddl.Condition.Subst
import Pddl.Condition.Traverse
import Pddl.Combinations.Product
import Pddl.Condition.Simplify
import Pddl.Condition.Dnf
import Pddl.Problem.Basic
import Pddl.Problem.Builder
import Pddl.Combinations.Odometer
import Pddl.Condition.Evaluate
import Pddl.Syntax.Term
import Pddl.Syntax.Reader
import Pddl.Syntax.Elaborate
import Pddl.Syntax.Problem
import Pddl.Config
import Pddl.Setting
import Pddl.Preprocess.Cost
import Pddl.Preprocess.Quantifier
import Pddl.Preprocess.Split
import Pddl.Preprocess.Pipeline
import Pddl.Ground.Atom
import Pddl.Ground.State
import Pddl.Ground.Guard
import Pddl.Ground.Action
import Pddl.Ground.Error
import Pddl.Ground.Stratify
import Pddl.Ground.Task
import Pddl.Ground.Instantiate
import Pddl.Ground.Naive
import Pddl.Ground.Reachable
import Pddl.Ground.Strategy
import Pddl.Search.Plan
import Pddl.Search.Forward
import Pddl.Search.Validate
import Pddl.Solve
import Pddl.Proofs.Ground.Runs
import Pddl.Proofs.Ground.Width
import Pddl.Proofs.Search.Frontier
import Pddl.Proofs.Search.Sound
import Pddl.Proofs.Search.Complete
import Pddl.Proofs.Ground.Close
import Pddl.Proofs.Except
import Pddl.Proofs.Problem.Build
import Pddl.Proofs.Condition.Closed
import Pddl.Proofs.Ground.Failures
import Pddl.Proofs.Preprocess.Closed
import Pddl.Proofs.Condition.Evaluate
import Pddl.Proofs.Ground.Guards
import Pddl.Proofs.Ground.Instances
import Pddl.Proofs.Condition.Normal
import Pddl.Proofs.Condition.Kinds
import Pddl.Proofs.Condition.Disjunctive
import Pddl.Proofs.Preprocess.Quantifier
import Pddl.Proofs.Preprocess.Split
import Pddl.Proofs.Preprocess.Cost
import Pddl.Proofs.Ground.Plain
import Pddl.Proofs.Ground.Strata
import Pddl.Proofs.Combinations.Enumeration
import Pddl.Proofs.Model.Subtype
import Pddl.Proofs.Ground.Join
import Pddl.Proofs.Ground.Universe
import Pddl.Proofs.Ground.Layers
import Pddl.Proofs.Ground.Saturation
import Pddl.Proofs.Condition.Folding
import Pddl.Proofs.Condition.Substitution
import Pddl.Proofs.Search.Limit
import Pddl.Proofs.Preprocess.Idempotent
import Pddl.Proofs.Condition.Traversal
import Pddl.Proofs.Ground.Relaxation
import Pddl.Proofs.Setting.WriteOnce
import Pddl.Proofs.Ground.SemiNaive
import Pddl.Proofs.Ground.Pool
