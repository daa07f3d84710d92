import RuleAudit.Decimal.Layout
import RuleAudit.Numeral

/-!
# Numbers

Rules are read, normalised and encoded over any type of numbers with the operations of `Scalar`.
Two types have them: doubles, on which reports are computed, and rationals, on which the meaning
of a rule is exact. Every finite number has an exact rational value, and every rational has a
nearest number.
-/

namespace RuleAudit

/-- The operations that rules need of their numbers. -/
class Scalar (K : Type) extends Add K, Sub K, Mul K, Div K, Neg K, LT K, LE K, BEq K where
  /-- The number nearest to a rational. -/
  ofRat : Rat → K
  /-- The exact value of a finite number. -/
  toRat? : K → Option Rat
  /-- The number that a numeral writes, if the type has one. -/
  ofNumeral? : Numeral → Option K
  /-- The text that identifies the number. -/
  plain : K → String
  /-- The text with six significant digits. -/
  brief : K → String
  decLt : DecidableLT K
  decLe : DecidableLE K

namespace Scalar

attribute [reducible, instance] Scalar.decLt Scalar.decLe

variable {K : Type} [Scalar K]

instance (priority := low) : Zero K := ⟨ofRat 0⟩

instance (priority := low) : One K := ⟨ofRat 1⟩

/-- The number is neither infinite nor undefined. -/
def isFinite (x : K) : Bool :=
  (toRat? x).isSome

/-- The number nearest to an integer, if it is in range. -/
def ofInt? (n : Int) : Option K :=
  let x : K := ofRat n
  if isFinite x then some x else none

/-- The distance from zero. -/
def abs (x : K) : K :=
  if x < 0 then -x else x

/-- Read a numeral as a number. -/
def read? (s : String) : Option K :=
  (Numeral.read s).bind ofNumeral?

/-- The nearest number with `places` decimals. -/
def round (places : Nat) (x : K) : K :=
  match toRat? x with
  | some q => ofRat (roundPlaces places q)
  | none => x

end Scalar

/-- The text of a rational: an integer, or a quotient of two. -/
def ratText (q : Rat) : String :=
  if q.den = 1 then toString q.num else toString q.num ++ "/" ++ toString q.den

/-- The rational that a decimal writes. -/
def ratOfDecimal (negative : Bool) (digits : Nat) (exponent : Int) : Rat :=
  let magnitude : Rat :=
    if exponent < 0 then mkRat digits (Nat.pow 10 exponent.natAbs)
    else ((digits * Nat.pow 10 exponent.toNat : Nat) : Rat)
  if negative then -magnitude else magnitude

instance : Scalar Rat where
  ofRat q := q
  toRat? q := some q
  ofNumeral?
    | .decimal negative digits exponent => some (ratOfDecimal negative digits exponent)
    | _ => none
  plain := ratText
  brief := ratText
  decLt := inferInstance
  decLe := inferInstance

instance : Scalar Float where
  ofRat := Binary64.nearest
  toRat? := Binary64.toRat?
  ofNumeral?
    | .decimal negative digits exponent =>
      let magnitude := Binary64.ofDecimal digits exponent
      some (if negative then -magnitude else magnitude)
    | .infinite negative => some (if negative then -1.0 / 0.0 else 1.0 / 0.0)
    | .notANumber => some (0.0 / 0.0)
  plain := Layout.plain.render Decimal.shortest
  brief := Layout.brief.render (Decimal.significant 6)
  decLt := inferInstance
  decLe := inferInstance

end RuleAudit
