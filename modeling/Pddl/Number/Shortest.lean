import Pddl.Number.Binary64
/-!
# Shortest decimal text of binary64 numbers

A finite binary64 number `m × 2 ^ e` is written with the fewest significant decimal digits that
read back as it: a decimal reads back when it lies in the rounding interval of the number, the
reals halfway to its two neighbours, ends included when `m` is even. Of two such decimals with
the same number of digits the nearer one is taken, and of two equally near ones the even one.
Everything is exact arithmetic on natural numbers.

The digits `d` with value `d × 10 ^ q` are then laid out positionally when the decimal point
falls at most sixteen digits after the first one (`12340000000.0`, `12.34`), or at most five
zeros after the point (`0.001234`), and in scientific notation otherwise (`1e30`, `1.234e33`,
`5e-324`). A positional integer keeps a `.0`, and zero is `0.0`.
-/

namespace Pddl

/-- How `a × 10 ^ p` compares with `b × 2 ^ q`. -/
def compareScaled (a : Nat) (p : Int) (b : Nat) (q : Int) : Ordering :=
  compare (a * Nat.pow 10 p.toNat * Nat.pow 2 (-q).toNat) (b * Nat.pow 2 q.toNat * Nat.pow 10 (-p).toNat)

/-- The greatest `E` with `10 ^ E ≤ m × 2 ^ e`, for `m > 0`: within two of the estimate
`(log2 m + e) × log10 2`. -/
def floorLog10 (m : Nat) (e : Int) : Int :=
  let e0 := ((Nat.log2 m : Int) + e) * 30103 / 100000
  ([e0 + 2, e0 + 1, e0, e0 - 1, e0 - 2].find? fun k => compareScaled 1 k m e != .gt).getD (e0 - 2)

/-- Whether `d × 10 ^ q` reads back as `m × 2 ^ e`: it lies in the rounding interval, whose ends
count when `m` is even. Below a power of two the lower neighbour is twice as close. -/
def readsBack (m : Nat) (e : Int) (d : Nat) (q : Int) : Bool :=
  let low := if m = Nat.pow 2 52 && e > -1074 then 4 * m - 1 else 4 * m - 2
  let high := 4 * m + 2
  let lo := compareScaled d q low (e - 2)
  let hi := compareScaled d q high (e - 2)
  if m % 2 = 0 then lo != .lt && hi != .gt else lo == .gt && hi == .lt

/-- The decimals of `k` significant digits next to `m × 2 ^ e` that read back, the nearer one
first: their digits and exponent. -/
def candidateDigits (m : Nat) (e : Int) (k : Nat) : Option (Nat × Int) :=
  let q := floorLog10 m e - k + 1
  let below := m * Nat.pow 2 e.toNat * Nat.pow 10 (-q).toNat / (Nat.pow 2 (-e).toNat * Nat.pow 10 q.toNat)
  let above := below + 1
  match readsBack m e below q, readsBack m e above q with
  | true, false => some (below, q)
  | false, true => some (above, q)
  | true, true =>
      match compareScaled (2 * below + 1) q (2 * m) e with
      | .gt => some (below, q)
      | .lt => some (above, q)
      | .eq => some (if below % 2 = 0 then below else above, q)
  | false, false => none

/-- The digits without trailing zeros, the exponent raised to match. -/
def stripZeros : Nat → Nat → Int → Nat × Int
  | 0, d, q => (d, q)
  | fuel + 1, d, q => if d ≠ 0 && d % 10 = 0 then stripZeros fuel (d / 10) (q + 1) else (d, q)

/-- The fewest digits that read back as `m × 2 ^ e`, for `0 < m < 2 ^ 53`; seventeen digits
always do. -/
def shortestDigits (m : Nat) (e : Int) : Nat × Int :=
  let (d, q) := ((List.range 17).findSome? fun i => candidateDigits m e (i + 1)).getD
    (m * Nat.pow 2 e.toNat / Nat.pow 2 (-e).toNat, 0)
  stripZeros 20 d q

/-- The text of `d × 10 ^ q`, positional or scientific as the decimal point falls. -/
def decimalLayout (negative : Bool) (d : Nat) (q : Int) : String :=
  let ds := (toString d).toList
  let n : Int := ds.length
  let kk := n + q
  let zeros (k : Int) : List Char := List.replicate k.toNat '0'
  let body : List Char :=
    if 0 ≤ q && kk ≤ 16 then ds ++ zeros q ++ ['.', '0']
    else if 0 < kk && kk ≤ 16 then ds.take kk.toNat ++ ['.'] ++ ds.drop kk.toNat
    else if -5 < kk && kk ≤ 0 then ['0', '.'] ++ zeros (-kk) ++ ds
    else if ds.length = 1 then ds ++ ['e'] ++ (toString (kk - 1)).toList
    else ds.take 1 ++ ['.'] ++ ds.drop 1 ++ ['e'] ++ (toString (kk - 1)).toList
  String.ofList ((if negative then ['-'] else []) ++ body)

/-- The shortest text that reads back as the number. -/
def Binary64Value.text : Binary64Value → String
  | .finite neg 0 _ => if neg then "-0.0" else "0.0"
  | .finite neg m e =>
      let (m, e) := if m = Nat.pow 2 53 then (Nat.pow 2 52, e + 1) else (m, e)
      let (d, q) := shortestDigits m e
      decimalLayout neg d q
  | .infinite neg => if neg then "-inf" else "inf"
  | .nan => "NaN"

end Pddl
