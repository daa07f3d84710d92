import RuleAudit.Text.Quoted
import RuleAudit.Yaml.Plain
import RuleAudit.Yaml.Layout

/-!
# Writing scalars

A text is written plain when it reads back as a text, in single quotes when its characters allow it,
and in double quotes otherwise. Lines are folded behind the first word that ends after column 80.
-/

namespace RuleAudit.Yaml

/-! ### The choice of quotes -/

/-- How a text is written. -/
inductive Style where
  | plain
  | single
  | double
deriving DecidableEq, Repr

/-- A character, with those before and after it. -/
structure Spot where
  before : Option Char
  char : Char
  after : Option Char

/-- The characters of a text with their neighbours. -/
def spots (before : Option Char) : List Char → List Spot
  | [] => []
  | c :: rest => ⟨before, c, rest.head?⟩ :: spots (some c) rest

/-- No character, a blank or a line break. -/
def isGap (c : Option Char) : Bool :=
  match c with
  | none => true
  | some c => c = ' ' || c = '\t' || c.toNat = 0 || isBreak c

/-- A character that means something else than itself in a plain scalar outside of brackets. -/
def Spot.isIndicator (s : Spot) : Bool :=
  match s.before with
  | none => "#,[]\x7b\x7d&*!|>'\"%@\x60".toList.contains s.char ||
      ("?:-".toList.contains s.char && isGap s.after)
  | some b => (s.char = ':' && isGap s.after) || (s.char = '#' && isGap (some b))

/-- A line break that can be written as such. -/
def isTextBreak (c : Char) : Bool :=
  isBreak c && c ≠ '\r'

/-- A character that only double quotes can hold. -/
def isSpecial (c : Char) : Bool :=
  !(c = '\n' || (0x20 ≤ c.toNat && c.toNat ≤ 0x7E))

/-- A blank next to a line break, on the given side of it. -/
def Spot.isBlankBefore (s : Spot) : Bool :=
  s.char = ' ' && s.after.any isTextBreak

/-- A blank right behind a line break. -/
def Spot.isBlankBehind (s : Spot) : Bool :=
  s.char = ' ' && s.before.any isTextBreak

/-- A text begins or ends with a blank or a line break. -/
def hasOuterGap (cs : List Char) : Bool :=
  let isOuter (c : Char) := c = ' ' || isTextBreak c
  cs.head?.any isOuter || cs.getLast?.any isOuter

/-- A text begins like a marker of a document. -/
def startsLikeMarker (cs : List Char) : Bool :=
  cs.take 3 = ['-', '-', '-'] || cs.take 3 = ['.', '.', '.']

/-- Only double quotes can hold a text. -/
def needsDouble (cs : List Char) : Bool :=
  cs.any isSpecial || (spots none cs).any fun s => s.isBlankBefore || s.isBlankBehind

/-- A text can be written without quotes, as far as its characters are concerned. -/
def allowsPlain (cs : List Char) : Bool :=
  !needsDouble cs && !hasOuterGap cs && !cs.any isTextBreak && !startsLikeMarker cs &&
    !(spots none cs).any (·.isIndicator)

/-- How a text is written. -/
def styleOf (s : String) : Style :=
  let cs := s.toList
  if kindOf s = .text && allowsPlain cs then .plain
  else if needsDouble cs then .double
  else .single

/-! ### Folding -/

/-- The column behind which lines are folded. -/
def width : Nat := 80

/-- A line break and the indentation of the next line. -/
def newLine (indent : Nat) : List Char :=
  '\n' :: List.replicate indent ' '

/-- The column behind some characters. -/
def columnAfter (column : Nat) (cs : List Char) : Nat :=
  cs.foldl (fun n c => if c = '\n' then 0 else n + 1) column

/-- Write a text with folding; a quote is written as `mark`. One blank between words is the place of
a fold, and a line break in the text is doubled. -/
def foldWords (mark : List Char) (indent : Nat) :
    Option Char → (column : Nat) → List Char → List Char
  | _, _, [] => []
  | before, column, c :: rest =>
    let written : List Char :=
      if c = ' ' then
        if before.any (· ≠ ' ') && rest.head?.any (· ≠ ' ') && width < column then newLine indent
        else [' ']
      else if c = '\n' then
        (if before = some '\n' then [] else ['\n']) ++
          (if rest.head? = some '\n' then ['\n'] else newLine indent)
      else if c = '\'' then mark
      else [c]
    written ++ foldWords mark indent (some c) (columnAfter column written) rest

/-- The letters of escapes. -/
def escapeLetters : List (Nat × Char) :=
  [(0, '0'), (7, 'a'), (8, 'b'), (9, 't'), (10, 'n'), (11, 'v'), (12, 'f'), (13, 'r'), (27, 'e'),
    (34, '"'), (92, '\\'), (0x85, 'N'), (0xA0, '_'), (0x2028, 'L'), (0x2029, 'P')]

/-- The escape of a character, if it has to be escaped. -/
def escape? (c : Char) : Option (List Char) :=
  let n := c.toNat
  if c ≠ '"' && c ≠ '\\' && 0x20 ≤ n && n ≤ 0x7E then none
  else
    let digits (count : Nat) := (Text.hex count n).toUpper.toList
    some ('\\' :: match escapeLetters.find? (·.1 = n) with
      | some (_, letter) => [letter]
      | none =>
        if n ≤ 0xFF then 'x' :: digits 2
        else if n ≤ 0xFFFF then 'u' :: digits 4
        else 'U' :: digits 8)

/-- A fold in double quotes: the line ends with a backslash, and so does a blank that begins the
next one. -/
def escapedFold (indent : Nat) (next : Option Char) : List Char :=
  '\\' :: newLine indent ++ (if next = some ' ' then ['\\'] else [])

/-- Write the characters of a text in double quotes. `word` counts the characters since the last
fold, escape or beginning of the text that are not yet part of `column`. -/
def foldEscaped (indent : Nat) : (first : Bool) → (column word : Nat) → List Char → List Char
  | _, _, _, [] => []
  | first, column, word, c :: rest =>
    let inner := !first && !rest.isEmpty
    match escape? c with
    | some e =>
      let column := column + word + e.length
      if inner && width < column - 1 then
        let fold := escapedFold indent rest.head?
        e ++ fold ++ foldEscaped indent false (columnAfter 0 fold) 0 rest
      else e ++ foldEscaped indent false column 0 rest
    | none =>
      if inner && (c = ' ' || word = 0) && width < column + word then
        let fold := escapedFold indent (some c)
        fold ++ c :: foldEscaped indent false (columnAfter 0 fold) 1 rest
      else c :: foldEscaped indent false column (word + 1) rest

/-! ### Scalars -/

/-- A text as a scalar that starts in a column; its further lines are indented. -/
def scalarText (s : String) (column indent : Nat) : List Char :=
  match styleOf s with
  | .plain => foldWords ['\''] indent none column s.toList
  | .single => '\'' :: foldWords ['\'', '\''] indent none (column + 1) s.toList ++ ['\'']
  | .double => '"' :: foldEscaped indent true (column + 1) 0 s.toList ++ ['"']

/-- A number as a scalar: an exponent follows a point. -/
def numberText (shown : String) : List Char :=
  let cs := shown.toList
  if cs.contains '.' then cs
  else match Text.parts 'e' cs with
    | [digits, exponent] => digits ++ ['.', '0', 'e'] ++ exponent
    | _ => cs

variable {K : Type} [Scalar K]

/-- A datum that is no list and no mapping as a scalar. -/
def scalarOf (d : Datum K) (column indent : Nat) : List Char :=
  match d with
  | .null => "null".toList
  | .bool b => (if b then "true" else "false").toList
  | .real x => match Scalar.toRat? x with
    | some _ => numberText (Scalar.plain x)
    | none => (if x < 0 then "-.inf" else if 0 < x then ".inf" else ".nan").toList
  | .text s => scalarText s column indent
  | d => d.shown.toList

end RuleAudit.Yaml
