/-!
# Exact values of double-precision numbers

A finite double is an integer times a power of two. `Binary64.toRat?` reads that rational off the
bits, and `Binary64.nearest` goes the other way: the double closest to a rational, the even one of
two equally close. Both run on naturals, so no rounding happens on the way.
-/

namespace RuleAudit

/-- A quotient rounded to the nearest natural, a half going to the even neighbour. -/
def divHalfEven (num den : Nat) : Nat :=
  let q := num / den
  let r := num % den
  if 2 * r < den then q
  else if den < 2 * r then q + 1
  else if q % 2 = 0 then q else q + 1

/-- A rational rounded to the nearest integer, a half going to the even neighbour. -/
def roundHalfEven (x : Rat) : Int :=
  let n := divHalfEven x.num.natAbs x.den
  if x.num < 0 then -(n : Int) else n

/-- The rational with `places` decimals nearest to `x`, a half going to the even neighbour. -/
def roundPlaces (places : Nat) (x : Rat) : Rat :=
  let scale : Rat := (Nat.pow 10 places : Rat)
  (roundHalfEven (x * scale) : Rat) / scale

namespace Binary64

/-- A nonnegative finite value `m * 2 ^ q`. -/
structure Magnitude where
  m : Nat
  q : Int
  /-- The gap to the value below is half the gap to the value above. -/
  narrowBelow : Bool

/-- The leading bit of a normal significand, which is not stored. -/
def hiddenBit : Nat :=
  Nat.pow 2 52

/-- The magnitude in the bits of a finite value. -/
def Magnitude.ofBits (bits : UInt64) : Magnitude :=
  let e := ((bits >>> 52) &&& 0x7FF).toNat
  let f := (bits &&& 0xFFFFFFFFFFFFF).toNat
  if e = 0 then ⟨f, -1074, false⟩ else ⟨hiddenBit + f, (e : Int) - 1075, f == 0 && e > 1⟩

/-- The rational that a magnitude stands for. -/
def Magnitude.toRat (x : Magnitude) : Rat :=
  if x.q < 0 then mkRat x.m (Nat.pow 2 x.q.natAbs) else ((x.m * Nat.pow 2 x.q.toNat : Nat) : Rat)

/-- The bits of the double nearest to `num / den`, without a sign; all exponent bits are set when
the quotient is too large. -/
def magnitudeBits (num den : Nat) : Nat :=
  if num = 0 then 0 else
    let guess : Int := (num.log2 : Int) - den.log2 - 52
    let scaled (q : Int) : Nat × Nat := (num * Nat.pow 2 (-q).toNat, den * Nat.pow 2 q.toNat)
    let small := let (n, d) := scaled guess; n < d * hiddenBit
    let q := max (if small then guess - 1 else guess) (-1074)
    let m := let (n, d) := scaled q; divHalfEven n d
    let bits := if m < hiddenBit then m else (q + 1075).toNat * hiddenBit + (m - hiddenBit)
    min bits (0x7FF * hiddenBit)

/-- The sign bit. -/
def isNegative (x : Float) : Bool :=
  x.toBits >>> 63 == 1

/-- The exact value of a finite double. -/
def toRat? (x : Float) : Option Rat :=
  if x.isFinite then
    let magnitude := (Magnitude.ofBits x.toBits).toRat
    some (if isNegative x then -magnitude else magnitude)
  else none

/-- The double nearest to a rational, an infinity when the rational is out of range. -/
def nearest (x : Rat) : Float :=
  let bits := magnitudeBits x.num.natAbs x.den
  let magnitude := Float.ofBits (UInt64.ofNat bits)
  if x.num < 0 then -magnitude else magnitude

/-- The double nearest to `digits * 10 ^ exponent`. Exponents far out of range are settled by
the number of digits alone. -/
def ofDecimal (digits : Nat) (exponent : Int) : Float :=
  let top : Int := (digits.log2 : Int) / 4 + exponent
  if digits = 0 then 0.0
  else if top > 400 then 1.0 / 0.0
  else if (digits.log2 : Int) + exponent < -400 then 0.0
  else Float.ofScientific digits (exponent < 0) exponent.natAbs

end Binary64

end RuleAudit
