import Pddl.Condition.Numeric
import Pddl.Model.Error
import Pddl.Number.Shortest
import Pddl.Text.Quoted
/-!
# Request terms

A request is a tree of values: strings, integers of the 64-bit signed and unsigned ranges,
binary64 numbers, booleans, `null`, lists and objects with named fields. Conditions, fluents and
numeric expressions are lists in prefix notation, such as
`["and", ["on", "?x", "a"], ["not", ["clear", "b"]]]`; problems and steps are objects.

Terms are written back in compact JSON: strings quoted, integers as they are, binary64 numbers
in their shortest text that reads back (`-0.0`, `2500.0`, `1e16`), and object fields in their
order.

Reading a term can fail in two ways, kept apart by `Fault`: the term is not of the expected
shape, or the problem refuses the piece it denotes. A field whose value is `null` counts as
absent, and every field of a term that is not an object is absent.
-/

namespace Pddl

/-- A value of a request. -/
inductive Term where
  | str (s : String)
  | int (n : Int)
  /-- The binary64 number `± m × 2 ^ e`. -/
  | float (negative : Bool) (m : Nat) (e : Int)
  | bool (b : Bool)
  | null
  | list (ts : List Term)
  | obj (fields : List (String × Term))
  deriving Inhabited

namespace Term

mutual

/-- The term in the compact notation of requests: `["weight","a"]`. -/
def render : Term → String
  | .str s => quoteText s
  | .int n => toString n
  | .float negative m e => (Binary64Value.finite negative m e).text
  | .bool b => if b then "true" else "false"
  | .null => "null"
  | .list ts => "[" ++ renderAll ts ++ "]"
  | .obj fs => "\x7b" ++ renderFields fs ++ "\x7d"

def renderAll : List Term → String
  | [] => ""
  | [t] => render t
  | t :: ts => render t ++ "," ++ renderAll ts

def renderFields : List (String × Term) → String
  | [] => ""
  | [(k, v)] => quoteText k ++ ":" ++ render v
  | (k, v) :: fs => quoteText k ++ ":" ++ render v ++ "," ++ renderFields fs

end

end Term

/-- Why a request term could not be read. -/
inductive Fault where
  /-- The term does not have the expected shape. -/
  | malformed (msg : String)
  /-- The problem refuses the piece the term denotes. -/
  | model (e : ModelError)
  deriving Inhabited

/-- A builder result as a reading result. -/
def liftModel {α : Type} : Except ModelError α → Except Fault α
  | .ok a => .ok a
  | .error e => .error (.model e)

namespace Term

def asString : Term → Except Fault String
  | .str s => pure s
  | t => throw (.malformed ("expected a string, got " ++ t.render))

def asList : Term → Except Fault (List Term)
  | .list ts => pure ts
  | t => throw (.malformed ("expected an array, got " ++ t.render))

/-- An integer of the 64-bit signed range. -/
def asInt64 : Term → Except Fault Int
  | .int n => if fitsInt64 n then pure n else throw (.malformed ("expected a 64-bit integer, got " ++ (Term.int n).render))
  | t => throw (.malformed ("expected a 64-bit integer, got " ++ t.render))

/-- A list of exactly two terms; `shape` names the expected form when the length differs. -/
def asPair (shape : String) (t : Term) : Except Fault (Term × Term) := do
  match ← t.asList with
  | [a, b] => pure (a, b)
  | _ => throw (.malformed shape)

/-- The term at a position of a list, `null` past its end. -/
def entry (ts : List Term) (i : Nat) : Term := ts.getD i .null

/-- The value of a field, when it is present and not `null`. -/
def field? (t : Term) (k : String) : Option Term :=
  match t with
  | .obj fs =>
      match fs.lookup k with
      | some .null => none
      | v => v
  | _ => none

/-- The value of a field that must be present. -/
def need (t : Term) (k : String) : Except Fault Term :=
  match t.field? k with
  | some v => pure v
  | none => throw (.malformed ("missing field " ++ k))

/-- The elements of a list field, none when the field is absent. -/
def items (t : Term) (k : String) : Except Fault (List Term) :=
  match t.field? k with
  | some v => v.asList
  | none => pure []

/-- A flag field: its value when it is a boolean, the default otherwise. -/
def flag (t : Term) (k : String) (dflt : Bool) : Bool :=
  match t.field? k with
  | some (.bool b) => b
  | _ => dflt

/-- A string field that may be absent. -/
def optString (t : Term) (k : String) : Except Fault (Option String) :=
  match t.field? k with
  | some v => some <$> v.asString
  | none => pure none

end Term

end Pddl
