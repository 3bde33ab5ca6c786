/-!
# Decimal integer literals

A decimal integer literal is an optional sign followed by decimal digits, read left to right.
Reading stops at the first fault: an empty text, a character that is not a digit (a sign alone
counts as one, and so does a minus sign where only naturals are read), or a value that passes
the bound of the target range. A plus sign is accepted in front of the digits.
-/

namespace Pddl

/-- Why a text is not an integer of the target range. -/
inductive IntLiteralError where
  | empty
  | invalidDigit
  | tooLarge
  | tooSmall
  deriving DecidableEq, Inhabited

def IntLiteralError.message : IntLiteralError → String
  | .empty => "cannot parse integer from empty string"
  | .invalidDigit => "invalid digit found in string"
  | .tooLarge => "number too large to fit in target type"
  | .tooSmall => "number too small to fit in target type"

/-- The value of a digit character. -/
def digitValue? (c : Char) : Option Nat :=
  if c.isDigit then some (c.toNat - '0'.toNat) else none

/-- Accumulates digits onto `acc` while the value stays at most `max`. -/
def readDigitsUpTo (max : Nat) (acc : Nat) : List Char → Except IntLiteralError Nat
  | [] => pure acc
  | c :: cs =>
      match digitValue? c with
      | none => throw .invalidDigit
      | some d =>
          let acc := acc * 10 + d
          if acc > max then throw .tooLarge else readDigitsUpTo max acc cs

/-- Accumulates digits as a magnitude to be negated, while it stays at most `max`. -/
def readNegDigitsUpTo (max : Nat) (acc : Nat) : List Char → Except IntLiteralError Nat
  | [] => pure acc
  | c :: cs =>
      match digitValue? c with
      | none => throw .invalidDigit
      | some d =>
          let acc := acc * 10 + d
          if acc > max then throw .tooSmall else readNegDigitsUpTo max acc cs

/-- Reads a natural number of at most `max`. -/
def readNatLiteral (max : Nat) : List Char → Except IntLiteralError Nat
  | [] => throw .empty
  | ['+'] => throw .invalidDigit
  | ['-'] => throw .invalidDigit
  | '+' :: cs => readDigitsUpTo max 0 cs
  | cs => readDigitsUpTo max 0 cs

/-- Reads an integer between `-minMag` and `max`. -/
def readIntLiteral (minMag max : Nat) : List Char → Except IntLiteralError Int
  | [] => throw .empty
  | ['+'] => throw .invalidDigit
  | ['-'] => throw .invalidDigit
  | '+' :: cs => Int.ofNat <$> readDigitsUpTo max 0 cs
  | '-' :: cs => (fun n => -Int.ofNat n) <$> readNegDigitsUpTo minMag 0 cs
  | cs => Int.ofNat <$> readDigitsUpTo max 0 cs

/-- The largest unsigned 32-bit value. -/
def maxUInt32 : Nat := Nat.pow 2 32 - 1

/-- The largest unsigned 64-bit value, the machine size. -/
def maxUInt64 : Nat := Nat.pow 2 64 - 1

end Pddl
