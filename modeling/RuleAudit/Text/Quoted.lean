import RuleAudit.Text.Printable

/-!
# Quoted texts

How messages show a text as a value: in single quotes, or in double quotes when the text has
single quotes and no double ones. Backslashes and the quote itself are escaped, line breaks and
tabs have letters, and other characters that are not printable are written by code point.
-/

namespace RuleAudit.Text

/-- The lower-case hexadecimal digits of `n`, at least `width` of them. -/
def hex (width n : Nat) : String :=
  let digits := Nat.toDigits 16 n
  String.ofList (List.replicate (width - digits.length) '0' ++ digits)

/-- One character between quotes. -/
def escapeChar (quote c : Char) : String :=
  if c = '\\' then "\\\\"
  else if c = quote then String.ofList ['\\', c]
  else if c = '\n' then "\\n"
  else if c = '\r' then "\\r"
  else if c = '\t' then "\\t"
  else if isPrintable c then String.ofList [c]
  else if c.toNat < 0x100 then "\\x" ++ hex 2 c.toNat
  else if c.toNat < 0x10000 then "\\u" ++ hex 4 c.toNat
  else "\\U" ++ hex 8 c.toNat

/-- The quote that fits a text. -/
def quoteFor (s : String) : Char :=
  if s.toList.contains '\'' && !s.toList.contains '"' then '"' else '\''

/-- A text as messages show it. -/
def quoted (s : String) : String :=
  let quote := quoteFor s
  let mark := String.ofList [quote]
  mark ++ String.join (s.toList.map (escapeChar quote)) ++ mark

end RuleAudit.Text
