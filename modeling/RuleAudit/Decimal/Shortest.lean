import RuleAudit.Binary64

/-!
# Decimals that stand for a double

`shortest` picks the decimal with the fewest digits among those that read back to the same
double, the one closest to it, and the even one of two equally close. `significant` rounds the
exact value to a fixed number of digits. Both drop trailing zeros, so a value has one result.
-/

namespace RuleAudit

/-- A positive decimal `digits * 10 ^ exponent`. -/
structure Decimal where
  digits : Nat
  exponent : Int
deriving DecidableEq, Repr

namespace Decimal

open Binary64 (Magnitude)

/-- Compare `a * 10 ^ i` with `n * 2 ^ j`. -/
private def compareScaled (a : Nat) (i : Int) (n : Nat) (j : Int) : Ordering :=
  compare (a * Nat.pow 10 i.toNat * Nat.pow 2 (-j).toNat)
    (n * Nat.pow 2 j.toNat * Nat.pow 10 (-i).toNat)

/-- The decimal lies among the reals that round to `x`: between the halfway points to its two
neighbours, these included when `x` has an even significand. -/
def readsBack (x : Magnitude) (d : Decimal) : Bool :=
  let low := if x.narrowBelow then 4 * x.m - 1 else 4 * x.m - 2
  let below := compareScaled d.digits d.exponent low (x.q - 2)
  let above := compareScaled d.digits d.exponent (4 * x.m + 2) (x.q - 2)
  let closed := x.m % 2 == 0
  (below == .gt || (closed && below == .eq)) && (above == .lt || (closed && above == .eq))

/-- The number of decimal digits, none for zero. -/
def digitCount (n : Nat) : Nat :=
  if n = 0 then 0 else (Nat.toDigits 10 n).length

/-- The least `k` with `x < 10 ^ k`, for a positive `x`. -/
def scale (x : Magnitude) : Int :=
  if x.q < 0 then
    -- The integer part and, if there is none, the first digit of the reciprocal settle it.
    let den := Nat.pow 2 x.q.natAbs
    if den ≤ x.m then digitCount (x.m / den)
    else
      let k := digitCount (den / x.m)
      -- Here `10 ^ (k - 1) ≤ den / m < 10 ^ k`; an exact power of ten is one step higher.
      if x.m * Nat.pow 10 (k - 1) = den then 2 - (k : Int) else 1 - (k : Int)
  else digitCount (x.m * Nat.pow 2 x.q.toNat)

/-- Trailing zeros of the digits moved into the exponent, at most `fuel` of them. -/
def strip : Nat → Decimal → Decimal
  | 0, d => d
  | fuel + 1, d =>
    if d.digits ≠ 0 ∧ d.digits % 10 = 0 then strip fuel ⟨d.digits / 10, d.exponent + 1⟩ else d

/-- The quotient of `x` and a power of ten, as numerator and denominator. -/
private def overPower (x : Magnitude) (k : Int) : Nat × Nat :=
  (x.m * Nat.pow 2 x.q.toNat * Nat.pow 10 (-k).toNat, Nat.pow 2 (-x.q).toNat * Nat.pow 10 k.toNat)

/-- The better one of the two decimals with exponent `k` next to `x`, if one reads back. -/
private def onGrid? (x : Magnitude) (k : Int) : Option Decimal :=
  let (num, den) := overPower x k
  let low : Decimal := ⟨num / den, k⟩
  let high : Decimal := ⟨num / den + 1, k⟩
  match readsBack x low, readsBack x high with
  | true, true => some ⟨divHalfEven num den, k⟩
  | true, false => some low
  | false, true => some high
  | false, false => none

/-- The decimal with the fewest digits that reads back to a positive `x`. -/
def shortest (x : Magnitude) : Decimal :=
  let top := scale x
  let found := (List.range 17).findSome? fun n : Nat => onGrid? x (top - 1 - (n : Int))
  match found with
  | some d => strip 20 d
  | none => let (num, _) := overPower x (-1074); strip 1100 ⟨num, -1074⟩

/-- A positive `x` rounded to `count` digits, a half going to the even neighbour. -/
def significant (count : Nat) (x : Magnitude) : Decimal :=
  let k := scale x - count
  let (num, den) := overPower x k
  strip 20 ⟨divHalfEven num den, k⟩

end Decimal

end RuleAudit
