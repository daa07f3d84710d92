import RuleAudit.Text.Utf8

/-!
# Percent-encoded text

In a path, `%` and two hexadecimal digits stand for a byte; the bytes are the UTF-8 form of the
text. A `%` without two digits stands for itself.
-/

namespace RuleAudit.Text

/-- The value of a hexadecimal digit of either case. -/
def hexDigit? (c : Char) : Option Nat :=
  if c.isDigit then some (c.toNat - '0'.toNat)
  else if 'a' ≤ c ∧ c ≤ 'f' then some (c.toNat - 'a'.toNat + 10)
  else if 'A' ≤ c ∧ c ≤ 'F' then some (c.toNat - 'A'.toNat + 10)
  else none

/-- The bytes that a percent-encoded text stands for. -/
def percentBytes : List Char → List UInt8
  | '%' :: h :: l :: rest => match hexDigit? h, hexDigit? l with
    | some a, some b => UInt8.ofNat (16 * a + b) :: percentBytes rest
    | _, _ => bytesOf '%' ++ percentBytes (h :: l :: rest)
  | c :: rest => bytesOf c ++ percentBytes rest
  | [] => []

/-- The text that a percent-encoded text stands for. -/
def percentDecode (s : String) : String :=
  ofBytes (percentBytes s.toList)

end RuleAudit.Text
