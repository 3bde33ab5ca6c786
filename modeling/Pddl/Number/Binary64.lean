/-!
# Decimal floating-point literals and binary64 rounding

A floating-point literal is an optional sign followed by `inf`, `infinity` or `nan` (in any
case), or by a decimal: digits with an optional point, at least one digit in all, and an
optional exponent `e` or `E` with an optional sign and at least one digit.

A decimal denotes the binary64 number nearest to its exact value, ties to an even mantissa;
values beyond the largest finite number become infinite and values below half the least
subnormal become zero. Everything is computed exactly on natural numbers.
-/

namespace Pddl

/-- A floating-point literal as written. -/
inductive FloatLiteral where
  | nan
  | infinity (negative : Bool)
  /-- The value `± digits × 10 ^ exp`. -/
  | decimal (negative : Bool) (digits : Nat) (exp : Int)
  deriving DecidableEq, Inhabited

/-- Why a text is not a floating-point literal. -/
inductive FloatLiteralError where
  | empty
  | invalid
  deriving DecidableEq, Inhabited

def FloatLiteralError.message : FloatLiteralError → String
  | .empty => "cannot parse float from empty string"
  | .invalid => "invalid float literal"

/-- The value of a string of decimal digits. -/
def digitsValue (ds : List Char) : Nat :=
  ds.foldl (fun acc c => acc * 10 + (c.toNat - '0'.toNat)) 0

/-- The leading digits and the rest. -/
def spanDigits (cs : List Char) : List Char × List Char :=
  (cs.takeWhile Char.isDigit, cs.dropWhile Char.isDigit)

/-- An exponent: an optional sign and at least one digit, with nothing after them. -/
def readExponent (cs : List Char) : Option Int :=
  let unsigned (cs : List Char) : Option Nat :=
    match spanDigits cs with
    | (ds, []) => if ds.isEmpty then none else some (digitsValue ds)
    | _ => none
  match cs with
  | '+' :: cs => (Int.ofNat ·) <$> unsigned cs
  | '-' :: cs => (fun n => -Int.ofNat n) <$> unsigned cs
  | cs => (Int.ofNat ·) <$> unsigned cs

/-- A decimal without its sign: digits, an optional point and digits, an optional exponent. -/
def readDecimal (negative : Bool) (cs : List Char) : Option FloatLiteral :=
  let (intDs, rest) := spanDigits cs
  let (fracDs, rest) := match rest with
    | '.' :: r => spanDigits r
    | r => ([], r)
  if intDs.isEmpty && fracDs.isEmpty then none
  else
    let digits := digitsValue (intDs ++ fracDs)
    let exp : Int := -(fracDs.length : Int)
    match rest with
    | [] => some (.decimal negative digits exp)
    | c :: r =>
        if c == 'e' || c == 'E' then (readExponent r).map fun x => .decimal negative digits (exp + x)
        else none

/-- Whether the text is the word, ignoring the case of ASCII letters. -/
def equalsIgnoringCase (cs : List Char) (word : String) : Bool :=
  cs.map Char.toLower == word.toList

/-- Reads a floating-point literal. -/
def readFloatLiteral (cs : List Char) : Except FloatLiteralError FloatLiteral :=
  match cs with
  | [] => throw .empty
  | c :: rest =>
      let negative := c == '-'
      let body := if c == '-' || c == '+' then rest else cs
      if body.isEmpty then throw .invalid
      else
        match readDecimal negative body with
        | some lit => pure lit
        | none =>
            if equalsIgnoringCase body "nan" then pure .nan
            else if equalsIgnoringCase body "inf" || equalsIgnoringCase body "infinity" then
              pure (.infinity negative)
            else throw .invalid

/-- The quotient `a / b` rounded to the nearest natural, ties to even. -/
def roundHalfEven (a b : Nat) : Nat :=
  let q := a / b
  let r := a % b
  if 2 * r > b then q + 1 else if 2 * r < b then q else q + q % 2

/-- Whether `n / d ≥ 2 ^ k`. -/
def ratioAtLeastPow2 (n d : Nat) (k : Int) : Bool :=
  if 0 ≤ k then decide (n ≥ d * Nat.pow 2 k.toNat) else decide (n * Nat.pow 2 (-k).toNat ≥ d)

/-- The binary64 number nearest to `n / d > 0`, as `(m, e)` with value `m × 2 ^ e`, or `none`
when it is infinite. -/
def nearestBinary64 (n d : Nat) : Option (Nat × Int) :=
  let k0 : Int := (Nat.log2 n : Int) - (Nat.log2 d : Int)
  let k := if ratioAtLeastPow2 n d k0 then k0 else k0 - 1
  let e := max (k - 52) (-1074)
  let m := if 0 ≤ e then roundHalfEven n (d * Nat.pow 2 e.toNat) else roundHalfEven (n * Nat.pow 2 (-e).toNat) d
  let top := if m = Nat.pow 2 53 then k + 1 else k
  if top ≥ 1024 then none else some (m, e)

/-- A number of binary64 for durations: zero or positive `m × 2 ^ e`, or infinite. -/
inductive Binary64Value where
  | finite (negative : Bool) (m : Nat) (e : Int)
  | infinite (negative : Bool)
  | nan
  deriving DecidableEq, Inhabited

/-- The binary64 value of a literal. -/
def FloatLiteral.toBinary64 : FloatLiteral → Binary64Value
  | .nan => .nan
  | .infinity neg => .infinite neg
  | .decimal neg digits exp =>
      if digits = 0 then .finite neg 0 0
      else
        let width : Int := (toString digits).length
        if width + exp > 310 then .infinite neg
        else if width + exp < -330 then .finite neg 0 0
        else
          let (n, d) := if 0 ≤ exp then (digits * Nat.pow 10 exp.toNat, 1) else (digits, Nat.pow 10 (-exp).toNat)
          match nearestBinary64 n d with
          | some (m, e) => .finite neg m e
          | none => .infinite neg

end Pddl
