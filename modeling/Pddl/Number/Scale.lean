import Pddl.Number.Binary64
/-!
# Decimal scaling in binary64 steps

A decimal `significand × 10 ^ exp` can be brought into binary64 the quick way: round the
significand to binary64, then multiply it by the binary64 number nearest to `10 ^ exp`, or divide
it by the one nearest to `10 ^ -exp`, rounding the result once more. Powers beyond `10 ^ 308`
are reached by dividing by `10 ^ 308` first, as often as needed; a product that overflows, or a
positive power beyond `10 ^ 308` of a nonzero number, is out of range.

The two roundings make this differ from the nearest binary64 number in rare cases, such as
`9007199254740993.0`, which becomes `9007199254740994` instead of `9007199254740992`.

Finite non-negative binary64 numbers are pairs `(m, e)` with value `m × 2 ^ e`; every step
rounds the exact result with `nearestBinary64`, so each is one correctly rounded operation.
-/

namespace Pddl

/-- The binary64 number nearest to a natural number, or `none` when it is infinite. -/
def binary64OfNat (n : Nat) : Option (Nat × Int) :=
  if n = 0 then some (0, 0) else nearestBinary64 n 1

/-- The product of two finite binary64 numbers, rounded; `none` when it overflows. -/
def mulBinary64 (a b : Nat × Int) : Option (Nat × Int) :=
  let m := a.1 * b.1
  let e := a.2 + b.2
  if m = 0 then some (0, 0)
  else if 0 ≤ e then nearestBinary64 (m * Nat.pow 2 e.toNat) 1
  else nearestBinary64 m (Nat.pow 2 (-e).toNat)

/-- The quotient of two finite binary64 numbers, the divisor nonzero, rounded. -/
def divBinary64 (a b : Nat × Int) : Option (Nat × Int) :=
  let e := a.2 - b.2
  if a.1 = 0 || b.1 = 0 then some (0, 0)
  else if 0 ≤ e then nearestBinary64 (a.1 * Nat.pow 2 e.toNat) b.1
  else nearestBinary64 a.1 (b.1 * Nat.pow 2 (-e).toNat)

/-- The binary64 number nearest to `10 ^ k`. -/
def powerOfTen (k : Nat) : Nat × Int :=
  (binary64OfNat (Nat.pow 10 k)).getD (0, 0)

/-- Scales `f` by `10 ^ exp` in binary64 steps, `fuel` bounding the divisions by `10 ^ 308`;
`none` when the result is out of range. -/
def scaleByPowerOfTen : Nat → Nat × Int → Int → Option (Nat × Int)
  | 0, f, _ => some f
  | fuel + 1, f, exp =>
      if exp.natAbs ≤ 308 then
        if 0 ≤ exp then mulBinary64 f (powerOfTen exp.natAbs)
        else divBinary64 f (powerOfTen exp.natAbs)
      else if f.1 = 0 then some f
      else if 0 ≤ exp then none
      else
        match divBinary64 f (powerOfTen 308) with
        | some g => scaleByPowerOfTen fuel g (exp + 308)
        | none => none

/-- The binary64 number of `significand × 10 ^ exp` reached in steps, or `none` when it is out
of range. -/
def decimalInSteps (significand : Nat) (exp : Int) : Option (Nat × Int) := do
  let f ← binary64OfNat significand
  scaleByPowerOfTen (exp.natAbs / 308 + 2) f exp

end Pddl
