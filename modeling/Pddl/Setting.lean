import Pddl.Config
/-!
# Settings read once from the environment

A setting has a name, the name of an environment variable, the text of its default value, and
a way to read its values from text; it holds values of any type that can be read so, such as the
kinds of `SettingKind`. Its value is read on first access: the variable's text when it is set
and can be read, otherwise the default, with a warning when the variable was set but could not
be read. A default that cannot be read stops the program, and the setting stays unread, so a
later access tries again. Once read, the value never changes; forcing a value is only possible
while the setting is unread.

The environment is given as the optional text of the variable at the time of each access.
-/

namespace Pddl

/-- The types of values a setting can hold. -/
inductive SettingKind where
  | bool
  /-- Unsigned 32-bit numbers. -/
  | uint32
  /-- Signed 64-bit numbers. -/
  | int64
  /-- Unsigned numbers of the machine size, 64 bits. -/
  | size
  | string
  | grounding
  | search
  deriving DecidableEq, Inhabited

/-- A value of a setting. -/
inductive SettingValue where
  | bool (b : Bool)
  | int (n : Int)
  | string (s : String)
  | grounding (g : GroundingStrategy)
  | search (s : SearchStrategy)
  deriving DecidableEq, Inhabited

/-- Reads a value of the kind from its text, or gives the reason why it cannot. -/
def SettingKind.read : SettingKind → String → Except String SettingValue
  | .bool, s => SettingValue.bool <$> readBool s
  | .uint32, s => (fun n => SettingValue.int n) <$> (readNatLiteral maxUInt32 s.toList).mapError (·.message)
  | .int64, s => SettingValue.int <$> (readIntLiteral (Nat.pow 2 63) (Nat.pow 2 63 - 1) s.toList).mapError (·.message)
  | .size, s => (fun n => SettingValue.int n) <$> (readNatLiteral maxUInt64 s.toList).mapError (·.message)
  | .string, s => pure (.string s)
  | .grounding, s => SettingValue.grounding <$> GroundingStrategy.read s
  | .search, s => SettingValue.search <$> SearchStrategy.read s

/-- Whether a text can name an environment variable: it is not empty and holds neither `=` nor
the NUL character. -/
def isVariableName (name : String) : Bool :=
  !name.isEmpty && !name.toList.any (fun c => c == '=' || c.toNat == 0)

/-- The result of an access: a value, or a stop of the program with its message. -/
inductive Access (α : Type) where
  | value (a : α)
  | halt (msg : String)
  deriving Inhabited

namespace Access

def map {α β : Type} (f : α → β) : Access α → Access β
  | .value a => .value (f a)
  | .halt msg => .halt msg

/-- The value, when the access did not stop the program. -/
def value? {α : Type} : Access α → Option α
  | .value a => some a
  | .halt _ => none

end Access

/-- A setting of values of type `α`: the name of its environment variable, the text of its
default value, how a value is read from a text (or the reason why it cannot be), and the value
once read. -/
structure Setting (α : Type) where
  name : String
  default : String
  read : String → Except String α
  value : Option α := none

/-- A call on a setting: an access, made while the variable has the given text (`none` when it
is not set), or forcing a value. -/
inductive SettingCall (α : Type) where
  | get (env : Option String)
  | set (v : α)

namespace Setting

variable {α : Type}

/-- The warning logged when the variable's text cannot be read. -/
def unreadableWarning (s : Setting α) (text reason : String) : String :=
  "could not parse \"" ++ text ++ "\" (" ++ reason ++ "), using default \"" ++ s.default ++ "\""

/-- The message of the stop when the default cannot be read. -/
def invalidDefaultMessage (s : Setting α) : String :=
  "[env_param] " ++ s.name ++ ": invalid default value \"" ++ s.default ++ "\"."

/-- The message of the stop when a value is forced after the first access. -/
def alreadyInitializedMessage (s : Setting α) : String :=
  "Parameter " ++ s.name ++ " is already initialized (i.e. was previously accessed)."

/-- Reads the default value, with the messages logged on the way. -/
def readDefault (s : Setting α) : Access α × List String :=
  match s.read s.default with
  | .ok v => (.value v, [])
  | .error e => (.halt s.invalidDefaultMessage, ["invalid default value: " ++ e])

/-- Reads the value from the variable's text, falling back to the default. -/
def readFrom (s : Setting α) (env : Option String) : Access α × List String :=
  match env with
  | none => s.readDefault
  | some text =>
      match s.read text with
      | .ok v => (.value v, [])
      | .error e =>
          let (r, logged) := s.readDefault
          (r, s.unreadableWarning text e :: logged)

/-- The value, read on the first access; the messages logged; the setting after the access. -/
def get (s : Setting α) (env : Option String) : Access α × List String × Setting α :=
  match s.value with
  | some v => (.value v, [], s)
  | none =>
      match s.readFrom env with
      | (.value v, logged) => (.value v, logged, { s with value := some v })
      | (.halt msg, logged) => (.halt msg, logged, s)

/-- Forces the value; refused once the setting was read. -/
def set (s : Setting α) (v : α) : Access Unit × Setting α :=
  match s.value with
  | some _ => (.halt s.alreadyInitializedMessage, s)
  | none => (.value (), { s with value := some v })

/-- Makes the call: what it gives back (the value an access reads, nothing for a forced value),
the messages logged, and the setting after it. -/
def call (s : Setting α) : SettingCall α → Access (Option α) × List String × Setting α
  | .get env =>
      let (r, logged, s') := s.get env
      (r.map some, logged, s')
  | .set v =>
      let (r, s') := s.set v
      (r.map fun _ => none, [], s')

/-- Makes the calls one after the other: what each gives back with the messages it logged, and
the setting after the last. -/
def run (s : Setting α) : List (SettingCall α) → List (Access (Option α) × List String) × Setting α
  | [] => ([], s)
  | c :: cs =>
      let (r, logged, s') := s.call c
      let (rs, s'') := s'.run cs
      ((r, logged) :: rs, s'')

end Setting

end Pddl
