import RuleAudit.Datum
import RuleAudit.Text.Parts
import RuleAudit.Text.Percent

/-!
# Plain scalars

A scalar without quotes is null, a truth value, an integer, a number or a text, by its spelling.
Integers are decimal, binary after `0b`, octal after `0`, hexadecimal after `0x`, or sexagesimal
with colons; numbers need a point, and the sign of their exponent. Dates, and the signs for merging
and for default values, are texts here, but a text of that spelling must be quoted all the same.
-/

namespace RuleAudit.Yaml

/-! ### Spellings -/

/-- What a plain scalar is. -/
inductive Kind where
  | null
  | bool (b : Bool)
  | integer
  | number
  | special
  | text
deriving DecidableEq, Repr

/-- A digit or an underscore. -/
def isDigitChar (c : Char) : Bool :=
  c.isDigit || c = '_'

/-- A digit followed by digits and underscores. -/
def isDigits : List Char → Bool
  | c :: rest => c.isDigit && rest.all isDigitChar
  | [] => false

/-- Such digits that do not begin with zero. -/
def isNatural (cs : List Char) : Bool :=
  isDigits cs && cs.head? ≠ some '0'

/-- Some characters of a set. -/
def isSome (allowed : Char → Bool) (cs : List Char) : Bool :=
  !cs.isEmpty && cs.all allowed

/-- The rest after an optional sign. -/
def unsigned : List Char → List Char
  | '+' :: rest => rest
  | '-' :: rest => rest
  | cs => cs

/-- A sexagesimal place. -/
def isSixty : List Char → Bool
  | [c] => c.isDigit
  | [c, d] => '0' ≤ c && c ≤ '5' && d.isDigit
  | _ => false

/-- The spelling of an integer without its sign. -/
def isInteger (cs : List Char) : Bool :=
  match cs with
  | '0' :: 'b' :: rest => isSome (fun c => c = '0' || c = '1' || c = '_') rest
  | '0' :: 'x' :: rest => isSome (fun c => (Text.hexDigit? c).isSome || c = '_') rest
  | ['0'] => true
  | '0' :: rest => rest.all fun c => ('0' ≤ c && c ≤ '7') || c = '_'
  | cs => match Text.parts ':' cs with
    | [] => false
    | first :: places => isNatural first && places.all isSixty

/-- An optional exponent, which has a sign. -/
def isExponent : List Char → Bool
  | [] => true
  | e :: sign :: digits =>
    (e = 'e' || e = 'E') && (sign = '+' || sign = '-') && isSome Char.isDigit digits
  | _ => false

/-- The rest after digits and underscores. -/
def afterDigits (cs : List Char) : List Char :=
  cs.dropWhile isDigitChar

/-- Sexagesimal places before a point, with digits after it. -/
def isSexagesimal (cs : List Char) : Bool :=
  match Text.parts '.' cs with
  | [whole, fraction] => fraction.all isDigitChar && match Text.parts ':' whole with
    | first :: place :: places => isDigits first && (place :: places).all isSixty
    | _ => false
  | _ => false

/-- The spelling of a number without its sign. -/
def isUnsignedNumber (cs : List Char) : Bool :=
  (match cs.takeWhile isDigitChar, afterDigits cs with
    | whole, '.' :: rest => isDigits whole && isExponent (afterDigits rest)
    | _, _ => false) ||
  isSexagesimal cs || [".inf", ".Inf", ".INF"].contains (String.ofList cs)

/-- The spelling of a number. -/
def isNumber (cs : List Char) : Bool :=
  isUnsignedNumber (unsigned cs) || [".nan", ".NaN", ".NAN"].contains (String.ofList cs) ||
  match cs with
  | '.' :: rest => isDigits (rest.takeWhile isDigitChar) && isExponent (afterDigits rest)
  | _ => false

/-- One or two digits. -/
def isShortPart (cs : List Char) : Bool :=
  (cs.length = 1 || cs.length = 2) && cs.all Char.isDigit

/-- Exactly two digits. -/
def isPair (cs : List Char) : Bool :=
  cs.length = 2 && cs.all Char.isDigit

/-- An optional zone of time. -/
def isZone (cs : List Char) : Bool :=
  match cs.dropWhile fun c => c = ' ' || c = '\t' with
  | [] => cs.isEmpty
  | ['Z'] => true
  | sign :: rest => (sign = '+' || sign = '-') && match Text.parts ':' rest with
    | [hours] => isShortPart hours
    | [hours, minutes] => isShortPart hours && isPair minutes
    | _ => false

/-- A time of day, after the sign or the blanks that part it from the date. -/
def isTime (cs : List Char) : Bool :=
  let body := match cs with
    | 'T' :: rest => some rest
    | 't' :: rest => some rest
    | c :: rest => if c = ' ' || c = '\t' then
        some (rest.dropWhile fun c => c = ' ' || c = '\t') else none
    | [] => none
  match body with
  | none => false
  | some body =>
    let clock := body.takeWhile fun c => c.isDigit || c = ':'
    let rest := body.dropWhile fun c => c.isDigit || c = ':'
    let rest := match rest with
      | '.' :: fraction => fraction.dropWhile Char.isDigit
      | rest => rest
    isZone rest && match Text.parts ':' clock with
      | [hours, minutes, seconds] => isShortPart hours && isPair minutes && isPair seconds
      | _ => false

/-- The spelling of a date, perhaps with a time. -/
def isDate (cs : List Char) : Bool :=
  let date := cs.takeWhile fun c => c.isDigit || c = '-'
  let rest := cs.dropWhile fun c => c.isDigit || c = '-'
  match Text.parts '-' date with
  | [year, month, day] => year.length = 4 && year.all Char.isDigit &&
      ((isPair month && isPair day && rest.isEmpty) ||
        (isShortPart month && isShortPart day && isTime rest))
  | _ => false

/-- What a plain scalar is, by its spelling. -/
def kindOf (s : String) : Kind :=
  let cs := s.toList
  if ["", "~", "null", "Null", "NULL"].contains s then .null
  else if ["yes", "Yes", "YES", "true", "True", "TRUE", "on", "On", "ON"].contains s then .bool true
  else if ["no", "No", "NO", "false", "False", "FALSE", "off", "Off", "OFF"].contains s then
    .bool false
  else if isInteger (unsigned cs) then .integer
  else if isNumber cs then .number
  else if isDate cs || s = "=" || s = "<<" then .special
  else .text

/-! ### Values -/

/-- The value of digits in a base. -/
def digitsIn (base : Nat) (cs : List Char) : Nat :=
  cs.foldl (fun n c => base * n + (Text.hexDigit? c).getD 0) 0

/-- The value of an integer without its sign. -/
def integerValue (cs : List Char) : Nat :=
  match cs with
  | '0' :: 'b' :: rest => digitsIn 2 rest
  | '0' :: 'x' :: rest => digitsIn 16 rest
  | '0' :: rest => digitsIn 8 rest
  | cs => (Text.parts ':' cs).foldl (fun n place => 60 * n + digitsIn 10 place) 0

variable {K : Type} [Scalar K]

/-- The value of a number without its sign, by its characters in lower case. -/
def numberValue (cs : List Char) : K :=
  let read (cs : List Char) : K := (Scalar.read? (String.ofList cs)).getD 0
  match Text.parts ':' cs with
  | [single] =>
    read (if single = ".inf".toList ∨ single = ".nan".toList then single.tail else single)
  | places => (places.reverse.foldl (fun (sum, base) place =>
      (sum + read place * base, base * Scalar.ofRat 60)) ((0 : K), (1 : K))).1

/-- The datum that a plain scalar writes. -/
def plainDatum (s : String) : Datum K :=
  let cs := s.toList.filter (· ≠ '_')
  let negative := cs.head? = some '-'
  match kindOf s with
  | .null => .null
  | .bool b => .bool b
  | .integer =>
    let n : Int := integerValue (unsigned cs)
    .int (if negative then -n else n)
  | .number =>
    let x : K := numberValue ((unsigned cs).map Char.toLower)
    .real (if negative then -x else x)
  | _ => .text s

end RuleAudit.Yaml
