import RuleAudit.Datum

/-!
# Writing JSON

Responses are written without spaces; numbers keep a point or an exponent, integers have neither.
Keys that are no texts are written as texts.
-/

namespace RuleAudit.Json

variable {K : Type} [Scalar K]

/-- One character of a quoted text. -/
def escape (c : Char) : String :=
  if c = '"' then "\\\""
  else if c = '\\' then "\\\\"
  else if c.toNat < 0x20 then "\\u" ++ Text.hex 4 c.toNat
  else String.ofList [c]

/-- A text in quotes. -/
def quote (s : String) : String :=
  "\"" ++ String.join (s.toList.map escape) ++ "\""

/-- A key of an object. -/
def key : Datum K → String
  | .null => "null"
  | .bool b => if b then "true" else "false"
  | .real x =>
    if Scalar.isFinite x then Scalar.plain x
    else if x < 0 then "-Infinity" else if 0 < x then "Infinity" else "NaN"
  | d => d.label

mutual
/-- A value. -/
def write : Datum K → String
  | .null => "null"
  | .bool b => if b then "true" else "false"
  | .int n => toString n
  | .real x => Scalar.plain x
  | .text s => quote s
  | .list ds => "[" ++ String.intercalate "," (writeItems ds) ++ "]"
  | .mapping es => "\x7b" ++ String.intercalate "," (writeFields es) ++ "\x7d"

/-- The items of a list. -/
def writeItems : List (Datum K) → List String
  | [] => []
  | d :: rest => write d :: writeItems rest

/-- The fields of an object. -/
def writeFields : List (Datum K × Datum K) → List String
  | [] => []
  | (k, v) :: rest => (quote (key k) ++ ":" ++ write v) :: writeFields rest
end

end RuleAudit.Json
