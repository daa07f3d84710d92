/-!
# White space

The characters that are trimmed from the ends of names and of numerals: the white space of
Unicode 14 and the four information separators.
-/

namespace RuleAudit.Text

/-- A code point lies in one of the closed ranges. -/
def inRanges (ranges : List (Nat × Nat)) (n : Nat) : Bool :=
  ranges.any fun r => r.1 ≤ n && n ≤ r.2

/-- Closed ranges of white space, ascending and apart. -/
def blankRanges : List (Nat × Nat) :=
  [(0x09, 0x0D), (0x1C, 0x20), (0x85, 0x85), (0xA0, 0xA0), (0x1680, 0x1680), (0x2000, 0x200A),
   (0x2028, 0x2029), (0x202F, 0x202F), (0x205F, 0x205F), (0x3000, 0x3000)]

/-- White space. -/
def isBlank (c : Char) : Bool :=
  inRanges blankRanges c.toNat

/-- A list of characters without the white space at its ends. -/
def stripChars (cs : List Char) : List Char :=
  ((cs.dropWhile isBlank).reverse.dropWhile isBlank).reverse

/-- A text without the white space at its ends. -/
def strip (s : String) : String :=
  String.ofList (stripChars s.toList)

/-- A text of white space only, or none at all. -/
def Blank (s : String) : Prop :=
  s.toList.all isBlank = true

instance (s : String) : Decidable (Blank s) :=
  inferInstanceAs (Decidable (_ = true))

end RuleAudit.Text
