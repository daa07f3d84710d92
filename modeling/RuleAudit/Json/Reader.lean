import RuleAudit.Assoc
import RuleAudit.Datum
import RuleAudit.Text.Percent

/-!
# Reading JSON

Requests arrive as JSON. A number with a point or an exponent is a number, any other one an
integer; of several values for a key the last one counts. Reading runs on the characters of the
text, with their count as a bound on the number of steps.
-/

namespace RuleAudit.Json

variable {K : Type} [Scalar K]

/-- The white space between the parts of a text. -/
def skip : List Char → List Char
  | c :: rest => if c = ' ' ∨ c = '\n' ∨ c = '\r' ∨ c = '\t' then skip rest else c :: rest
  | [] => []

/-- Four hexadecimal digits. -/
def hex4? : List Char → Option (Nat × List Char)
  | a :: b :: c :: d :: rest => do
    let high := (← Text.hexDigit? a) * 16 + (← Text.hexDigit? b)
    let low := (← Text.hexDigit? c) * 16 + (← Text.hexDigit? d)
    return (high * 256 + low, rest)
  | _ => none

/-- The character of a code unit, joined with the next one when the two form a pair. A unit that
stands alone is replaced. -/
def joinUnits (unit : Nat) (rest : List Char) : Char × List Char :=
  if 0xD800 ≤ unit ∧ unit < 0xDC00 then
    match rest with
    | '\\' :: 'u' :: more => match hex4? more with
      | some (low, after) =>
        if 0xDC00 ≤ low ∧ low < 0xE000 then
          (Char.ofNat (0x10000 + (unit - 0xD800) * 0x400 + (low - 0xDC00)), after)
        else (Char.ofNat 0xFFFD, rest)
      | none => (Char.ofNat 0xFFFD, rest)
    | _ => (Char.ofNat 0xFFFD, rest)
  else if 0xDC00 ≤ unit ∧ unit < 0xE000 then (Char.ofNat 0xFFFD, rest)
  else (Char.ofNat unit, rest)

/-- The character that a letter stands for after a backslash. -/
def unescape? : Char → Option Char
  | '"' => some '"'
  | '\\' => some '\\'
  | '/' => some '/'
  | 'b' => some (Char.ofNat 8)
  | 'f' => some (Char.ofNat 12)
  | 'n' => some '\n'
  | 'r' => some '\r'
  | 't' => some '\t'
  | _ => none

/-- The rest of a quoted text; `acc` holds the characters so far, last one first. -/
def quotedRest : Nat → List Char → List Char → Option (String × List Char)
  | 0, _, _ => none
  | fuel + 1, acc, cs => match cs with
    | '"' :: rest => some (String.ofList acc.reverse, rest)
    | '\\' :: 'u' :: rest => do
      let (unit, rest) ← hex4? rest
      let (c, rest) := joinUnits unit rest
      quotedRest fuel (c :: acc) rest
    | '\\' :: l :: rest => do quotedRest fuel ((← unescape? l) :: acc) rest
    | c :: rest => quotedRest fuel (c :: acc) rest
    | [] => none

/-- A character of a number. -/
def isNumberChar (c : Char) : Bool :=
  c.isDigit || c = '-' || c = '+' || c = '.' || c = 'e' || c = 'E'

/-- A number or an integer. -/
def number? (cs : List Char) : Option (Datum K × List Char) := do
  let word := cs.takeWhile isNumberChar
  let rest := cs.dropWhile isNumberChar
  let (negative, digits) := Numeral.splitSign word
  if digits.isEmpty then none
  else if digits.all Char.isDigit then
    let n := (Numeral.digitsValue digits : Int)
    return (.int (if negative then -n else n), rest)
  else return (.real (← Scalar.read? (String.ofList word)), rest)

mutual
/-- A value and the rest of the text. -/
def value : Nat → List Char → Option (Datum K × List Char)
  | 0, _ => none
  | fuel + 1, cs => match skip cs with
    | '"' :: rest => (quotedRest (rest.length + 1) [] rest).map fun (s, rest) => (.text s, rest)
    | '[' :: rest => match skip rest with
      | ']' :: rest => some (.list [], rest)
      | rest => (items fuel rest).map fun (ds, rest) => (.list ds, rest)
    | '\x7b' :: rest => match skip rest with
      | '\x7d' :: rest => some (.mapping [], rest)
      | rest => (fields fuel rest).map fun (fs, rest) => (.record (Assoc.ofPairs fs), rest)
    | 'n' :: 'u' :: 'l' :: 'l' :: rest => some (.null, rest)
    | 't' :: 'r' :: 'u' :: 'e' :: rest => some (.bool true, rest)
    | 'f' :: 'a' :: 'l' :: 's' :: 'e' :: rest => some (.bool false, rest)
    | cs => number? cs

/-- The items of a list up to its bracket. -/
def items : Nat → List Char → Option (List (Datum K) × List Char)
  | 0, _ => none
  | fuel + 1, cs => do
    let (d, rest) ← value fuel cs
    match skip rest with
    | ',' :: rest => let (ds, rest) ← items fuel rest; return (d :: ds, rest)
    | ']' :: rest => return ([d], rest)
    | _ => none

/-- The fields of an object up to its brace. -/
def fields : Nat → List Char → Option (List (String × Datum K) × List Char)
  | 0, _ => none
  | fuel + 1, cs => match skip cs with
    | '"' :: rest => do
      let (key, rest) ← quotedRest (rest.length + 1) [] rest
      match skip rest with
      | ':' :: rest =>
        let (d, rest) ← value fuel rest
        match skip rest with
        | ',' :: rest => let (fs, rest) ← fields fuel rest; return ((key, d) :: fs, rest)
        | '\x7d' :: rest => return ([(key, d)], rest)
        | _ => none
      | _ => none
    | _ => none
end

/-- Read a text that holds one value. -/
def read? (s : String) : Option (Datum K) := do
  let cs := s.toList
  let (d, rest) ← value (cs.length + 1) cs
  if (skip rest).isEmpty then return d else none

end RuleAudit.Json
