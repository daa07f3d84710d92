import RuleAudit.Text.Blank
import RuleAudit.Text.Digit

/-!
# Numerals

A numeral is an optional sign followed by digits with an optional point and an optional power of
ten, or by a name of infinity or of the value that is no number. White space may surround it,
single underscores may stand between digits, and the digits may be of any script.
-/

namespace RuleAudit

/-- What a numeral says, before it is made a number of some type. -/
inductive Numeral where
  | decimal (negative : Bool) (digits : Nat) (exponent : Int)
  | infinite (negative : Bool)
  | notANumber
deriving DecidableEq, Repr

namespace Numeral

/-- The number that a list of ASCII digits writes. -/
def digitsValue (cs : List Char) : Nat :=
  cs.foldl (fun n c => 10 * n + (c.toNat - '0'.toNat)) 0

/-- White space around a numeral; information separators do not count. -/
def isMargin (c : Char) : Bool :=
  Text.isBlank c && !(0x1C ≤ c.toNat && c.toNat ≤ 0x1F)

/-- A digit of any script as an ASCII digit, every other character as it is. -/
def plainDigit (c : Char) : Char :=
  match Text.digitValue? c with
  | some v => Char.ofNat ('0'.toNat + v)
  | none => c

/-- Drop the underscores that stand between two digits; any other one is an error. -/
def dropUnderscores : (previous : Char) → List Char → Option (List Char)
  | _, [] => some []
  | previous, '_' :: rest =>
    if previous.isDigit && (rest.head?.any Char.isDigit) then dropUnderscores '_' rest else none
  | _, c :: rest => (dropUnderscores c rest).map (c :: ·)

/-- Split off a sign; `true` is minus. -/
def splitSign : List Char → Bool × List Char
  | '-' :: rest => (true, rest)
  | '+' :: rest => (false, rest)
  | cs => (false, cs)

/-- The power of ten at the end of a numeral, zero when nothing is left. -/
def readExponent : List Char → Option Int
  | [] => some 0
  | c :: rest =>
    if c = 'e' ∨ c = 'E' then
      let (negative, ds) := splitSign rest
      if ds.isEmpty || !ds.all Char.isDigit then none
      else some (if negative then -(digitsValue ds : Int) else digitsValue ds)
    else none

/-- Digits with an optional point and power of ten; at least one digit stands before the power. -/
def readUnsigned (negative : Bool) (cs : List Char) : Option Numeral :=
  let whole := cs.takeWhile Char.isDigit
  let rest := cs.dropWhile Char.isDigit
  let (fraction, tail) := match rest with
    | '.' :: more => (more.takeWhile Char.isDigit, more.dropWhile Char.isDigit)
    | _ => ([], rest)
  if whole.isEmpty && fraction.isEmpty then none
  else (readExponent tail).map fun e =>
    .decimal negative (digitsValue (whole ++ fraction)) (e - fraction.length)

/-- Read a numeral. -/
def read (s : String) : Option Numeral := do
  let trimmed := ((s.toList.dropWhile isMargin).reverse.dropWhile isMargin).reverse
  let cs ← dropUnderscores ' ' (trimmed.map plainDigit)
  let (negative, body) := splitSign cs
  let word := String.ofList (body.map Char.toLower)
  if word = "inf" ∨ word = "infinity" then some (.infinite negative)
  else if word = "nan" then some .notANumber
  else readUnsigned negative body

end Numeral

end RuleAudit
