import RuleAudit.Text.Percent
import RuleAudit.Yaml.Layout

/-!
# Scalars as they are written

A scalar is plain, in single quotes or in double quotes. Line breaks within a scalar are folded. In
single quotes a quote is written twice; in double quotes a backslash starts an escape, and one
before a line break joins the lines.
-/

namespace RuleAudit.Yaml

/-! ### Quoted scalars -/

/-- The rest of a scalar in single quotes; `acc` holds its characters so far, last one first. -/
def singleQuoted : Nat → List Char → List Char → Option (String × List Char)
  | 0, _, _ => none
  | fuel + 1, acc, cs => match cs with
    | [] => none
    | '\'' :: '\'' :: rest => singleQuoted fuel ('\'' :: acc) rest
    | '\'' :: rest => some (String.ofList acc.reverse, rest)
    | c :: rest =>
      if c = ' ' || c = '\t' || isBreak c then
        let gap := gapAt (c :: rest) 0
        singleQuoted fuel (gap.text.reverse ++ acc) gap.cursor.rest
      else singleQuoted fuel (c :: acc) rest

/-- The characters that a letter stands for after a backslash. -/
def escapes : List (Char × Nat) :=
  [('0', 0), ('a', 7), ('b', 8), ('t', 9), ('\t', 9), ('n', 10), ('v', 11), ('f', 12), ('r', 13),
    ('e', 27), (' ', 32), ('"', 34), ('\\', 92), ('/', 47), ('N', 0x85), ('_', 0xA0), ('L', 0x2028),
    ('P', 0x2029)]

/-- How many hexadecimal digits follow a letter after a backslash. -/
def hexLength? : Char → Option Nat
  | 'x' => some 2
  | 'u' => some 4
  | 'U' => some 8
  | _ => none

/-- The character that some hexadecimal digits write. -/
def hexChar? (count : Nat) (cs : List Char) : Option (Char × List Char) :=
  let digits := (cs.take count).filterMap Text.hexDigit?
  if digits.length = count then
    some (Char.ofNat (digits.foldl (fun n d => 16 * n + d) 0), cs.drop count)
  else none

/-- The rest of a scalar in double quotes; `acc` holds its characters so far, last one first. -/
def doubleQuoted : Nat → List Char → List Char → Option (String × List Char)
  | 0, _, _ => none
  | fuel + 1, acc, cs => match cs with
    | [] => none
    | '"' :: rest => some (String.ofList acc.reverse, rest)
    | '\\' :: e :: rest =>
      if isBreak e then
        let gap := gapAt (e :: rest) 0
        doubleQuoted fuel (gap.breaks.tail.reverse ++ acc) gap.cursor.rest
      else match hexLength? e with
        | some count => do
          let (c, rest) ← hexChar? count rest
          doubleQuoted fuel (c :: acc) rest
        | none => do
          let (_, code) ← escapes.find? (·.1 = e)
          doubleQuoted fuel (Char.ofNat code :: acc) rest
    | c :: rest =>
      if c = ' ' || c = '\t' || isBreak c then
        let gap := gapAt (c :: rest) 0
        doubleQuoted fuel (gap.text.reverse ++ acc) gap.cursor.rest
      else doubleQuoted fuel (c :: acc) rest

/-- A scalar in quotes of either kind. -/
def quoted? : List Char → Option (String × List Char)
  | '\'' :: rest => singleQuoted (rest.length + 1) [] rest
  | '"' :: rest => doubleQuoted (rest.length + 1) [] rest
  | _ => none

/-! ### Plain scalars -/

/-- A character that ends a plain scalar inside brackets. -/
def isFlowEnd (c : Char) : Bool :=
  [',', '?', '[', ']', '\x7b', '\x7d'].contains c

/-- The characters up to a blank, a line break, or the end of a plain scalar. -/
def plainWord (inFlow : Bool) : List Char → List Char × List Char
  | [] => ([], [])
  | c :: rest =>
    let colonEnds := isBlankNext rest ||
      inFlow && (rest.head?.any fun d => [',', '[', ']', '\x7b', '\x7d'].contains d)
    if c = ' ' || c = '\t' || isBreak c || (c = ':' && colonEnds) || (inFlow && isFlowEnd c) then
      ([], c :: rest)
    else
      let (word, after) := plainWord inFlow rest
      (c :: word, after)

/-- The words of a plain scalar after the first one. Lines go on as long as they are indented to the
column `least`; a scalar that must stay on its line passes no break. -/
def plainRest (inFlow oneLine : Bool) (least : Nat) :
    Nat → List Char → Cursor → List Char × Cursor
  | 0, acc, cursor => (acc, cursor)
  | fuel + 1, acc, cursor =>
    let gap := gapAt cursor.rest cursor.column
    let after := gap.cursor
    let stops := after.isEnd || after.rest.head? = some '#' ||
      (!gap.breaks.isEmpty && (oneLine || (!inFlow && after.column < least)))
    if stops || (gap.breaks.isEmpty && gap.blanks.isEmpty) then (acc, cursor)
    else match plainWord inFlow after.rest with
      | ([], _) => (acc, cursor)
      | (word, rest) =>
        plainRest inFlow oneLine least fuel (word.reverse ++ gap.text.reverse ++ acc)
          ⟨rest, after.column + word.length⟩

/-- A plain scalar can start here. -/
def startsPlain (inFlow : Bool) : List Char → Bool
  | [] => false
  | c :: rest =>
    if c = '-' || (!inFlow && (c = '?' || c = ':')) then !isBlankNext rest
    else !(isBreak c || " \t?:,[]\x7b\x7d#&*!|>'\"%@\x60".toList.contains c)

/-- A plain scalar. -/
def plain? (inFlow oneLine : Bool) (least : Nat) (cursor : Cursor) : Option (String × Cursor) :=
  if startsPlain inFlow cursor.rest then
    let (word, rest) := plainWord inFlow cursor.rest
    if word.isEmpty then none
    else
      let (chars, after) := plainRest inFlow oneLine least cursor.rest.length word.reverse
        ⟨rest, cursor.column + word.length⟩
      some (String.ofList chars.reverse, after)
  else none

end RuleAudit.Yaml
