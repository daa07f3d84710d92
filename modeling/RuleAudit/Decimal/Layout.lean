import RuleAudit.Decimal.Shortest

/-!
# How a number is written

The layout of a decimal is the same in both forms that reports use: positional while the leading
digit's exponent is at least -4 and below a bound, otherwise one digit, a point, the rest and a
signed exponent of at least two digits. `plain` and `brief` are the two forms.
-/

namespace RuleAudit

/-- The decisions of a number format. -/
structure Layout where
  /-- Leading exponents from this one on are written with an exponent. -/
  exponentFrom : Int
  /-- A whole number keeps `.0`. -/
  pointZero : Bool

namespace Layout

/-- The text of a positive decimal. -/
def write (f : Layout) (d : Decimal) : String :=
  let digits := Nat.toDigits 10 d.digits
  let lead : Int := d.exponent + digits.length - 1
  if -4 ≤ lead ∧ lead < f.exponentFrom then
    if 0 ≤ d.exponent then
      let whole := digits ++ List.replicate d.exponent.toNat '0'
      String.ofList whole ++ if f.pointZero then ".0" else ""
    else if 0 ≤ lead then
      let whole := (lead + 1).toNat
      String.ofList (digits.take whole) ++ "." ++ String.ofList (digits.drop whole)
    else
      "0." ++ String.ofList (List.replicate (-lead - 1).toNat '0' ++ digits)
  else
    let rest := digits.drop 1
    let mantissa := String.ofList (digits.take 1) ++
      if rest.isEmpty then "" else "." ++ String.ofList rest
    let sign := if lead < 0 then "-" else "+"
    let power := toString lead.natAbs
    mantissa ++ "e" ++ sign ++ (if power.length < 2 then "0" ++ power else power)

/-- The text of a double, its decimal chosen by `choose`. -/
def render (f : Layout) (choose : Binary64.Magnitude → Decimal) (x : Float) : String :=
  if x.isNaN then "nan"
  else
    let sign := if Binary64.isNegative x then "-" else ""
    if x.isInf then sign ++ "inf"
    else
      let magnitude := Binary64.Magnitude.ofBits x.toBits
      if magnitude.m = 0 then sign ++ (if f.pointZero then "0.0" else "0")
      else sign ++ f.write (choose magnitude)

/-- Numbers are written with the fewest digits that identify them, positionally below 10^16. -/
def plain : Layout := ⟨16, true⟩

/-- Clause texts have at most six digits, positionally below 10^6, and no trailing zeros. -/
def brief : Layout := ⟨6, false⟩

end Layout

end RuleAudit
