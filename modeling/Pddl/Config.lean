import Pddl.Text.Blank
import Pddl.Number.Integer
import Pddl.Number.Binary64
/-!
# Options of the planning pipeline

A `Config` says whether disjunctions are kept in the ground model, which grounding and search
strategies run, and the optional expansion and time limits. Options are set from a name and a
text value, read with the blanks around it removed:

* `keep-disjunctions`: `true` or `false`;
* `grounding`: `naive`, or `rpg` (also `relaxed-graph`);
* `search`: `bfs` (also `breadth-first`) or `dfs` (also `depth-first`);
* `max-expansions`: a machine-size natural number, `0` for no limit;
* `time-limit`: a non-negative finite number of seconds, `0` for no limit, kept as the duration
  nearest to it in nanoseconds (ties to even). A number of seconds of `2^64` or more has no
  duration.
-/

namespace Pddl

/-- How the ground model is built. -/
inductive GroundingStrategy where
  /-- Every type-consistent atom and operator instance. -/
  | naive
  /-- Only the instances reachable in the delete relaxation. -/
  | relaxedGraph
  deriving DecidableEq, Inhabited

/-- The order in which the forward search explores states. -/
inductive SearchStrategy where
  | breadthFirst
  | depthFirst
  deriving DecidableEq, Inhabited

def GroundingStrategy.name : GroundingStrategy → String
  | .naive => "naive"
  | .relaxedGraph => "rpg"

def SearchStrategy.name : SearchStrategy → String
  | .breadthFirst => "bfs"
  | .depthFirst => "dfs"

def GroundingStrategy.read : String → Except String GroundingStrategy
  | "naive" => pure .naive
  | "rpg" => pure .relaxedGraph
  | "relaxed-graph" => pure .relaxedGraph
  | s => throw ("unknown grounding strategy \"" ++ s ++ "\" (expected naive or rpg)")

def SearchStrategy.read : String → Except String SearchStrategy
  | "bfs" => pure .breadthFirst
  | "breadth-first" => pure .breadthFirst
  | "dfs" => pure .depthFirst
  | "depth-first" => pure .depthFirst
  | s => throw ("unknown search strategy \"" ++ s ++ "\" (expected bfs or dfs)")

/-- Reads a boolean: exactly `true` or `false`. -/
def readBool : String → Except String Bool
  | "true" => pure true
  | "false" => pure false
  | _ => throw "provided string was not `true` or `false`"

/-- A length of time, in whole seconds and nanoseconds below one second. -/
structure Duration where
  secs : Nat
  nanos : Nat
  deriving DecidableEq, Inhabited

def nanosPerSec : Nat := 1000000000

/-- The duration of `m × 2 ^ e` seconds rounded to the nearest nanosecond, ties to an even
count, or `none` from `2 ^ 64` seconds on. -/
def Duration.ofBinary64 (m : Nat) (e : Int) : Option Duration :=
  let tooBig := if 0 ≤ e then m * Nat.pow 2 e.toNat ≥ Nat.pow 2 64 else m ≥ Nat.pow 2 64 * Nat.pow 2 (-e).toNat
  if tooBig then none
  else
    let total :=
      if 0 ≤ e then m * Nat.pow 2 e.toNat * nanosPerSec
      else roundHalfEven (m * nanosPerSec) (Nat.pow 2 (-e).toNat)
    some ⟨total / nanosPerSec, total % nanosPerSec⟩

/-- The options of the pipeline. -/
structure Config where
  keepDisjunctions : Bool := false
  grounding : GroundingStrategy := .relaxedGraph
  search : SearchStrategy := .breadthFirst
  maxExpansions : Option Nat := none
  timeLimit : Option Duration := none
  deriving DecidableEq, Inhabited

/-- Why an option cannot be set. -/
inductive ConfigError where
  | unknownOption (name : String)
  | invalidValue (option value reason : String)
  /-- The number of seconds is too large for a duration. -/
  | durationOverflow
  deriving DecidableEq, Inhabited

namespace ConfigError

def message : ConfigError → String
  | .unknownOption n => "unknown option " ++ n
  | .invalidValue o v r => "invalid value \"" ++ v ++ "\" for option " ++ o ++ ": " ++ r
  | .durationOverflow => "cannot convert float seconds to Duration: value is either too big or NaN"

/-- The kind of the error as reported; a duration overflow stops the program. -/
def code : ConfigError → String
  | .unknownOption _ => "ConfigError::UnknownOption"
  | .invalidValue .. => "ConfigError::InvalidValue"
  | .durationOverflow => "panic"

end ConfigError

namespace Config

/-- Reads the value of an option with the given reader, blanks around it removed. -/
def readValue {α : Type} (option value : String) (read : String → Except String α) :
    Except ConfigError α :=
  match read (trimBlankText value) with
  | .ok a => pure a
  | .error reason => throw (.invalidValue option value reason)

/-- Reads a number of seconds as a time limit, `none` for a zero duration. -/
def readTimeLimit (value : String) : Except ConfigError (Option Duration) := do
  let lit ← readValue "time-limit" value fun s =>
    (readFloatLiteral s.toList).mapError FloatLiteralError.message
  let invalid := ConfigError.invalidValue "time-limit" value "expected a non-negative number of seconds"
  match lit.toBinary64 with
  | .nan => throw invalid
  | .infinite _ => throw invalid
  | .finite negative m e =>
      if negative && m ≠ 0 then throw invalid
      else
        match Duration.ofBinary64 m e with
        | none => throw .durationOverflow
        | some d => pure (if d.secs = 0 && d.nanos = 0 then none else some d)

/-- Sets an option from its name and text value. -/
def setOption (cfg : Config) (name value : String) : Except ConfigError Config :=
  match name with
  | "keep-disjunctions" => do
      pure { cfg with keepDisjunctions := ← readValue name value readBool }
  | "grounding" => do pure { cfg with grounding := ← readValue name value GroundingStrategy.read }
  | "search" => do pure { cfg with search := ← readValue name value SearchStrategy.read }
  | "max-expansions" => do
      let n ← readValue name value fun s => (readNatLiteral maxUInt64 s.toList).mapError (·.message)
      pure { cfg with maxExpansions := if n = 0 then none else some n }
  | "time-limit" => do pure { cfg with timeLimit := ← readTimeLimit value }
  | _ => throw (.unknownOption name)

/-- Sets the options in order; the first refusal is the result. -/
def setOptions (cfg : Config) (options : List (String × String)) : Except ConfigError Config :=
  options.foldlM (fun cfg o => cfg.setOption o.1 o.2) cfg

end Config

end Pddl
