/-!
# Places in a YAML text

What is left of a text, and the column it starts in. Blanks, line breaks and comments may stand
between any two parts of a text; the column of the next part says where it belongs.
-/

namespace RuleAudit.Yaml

/-- A line break. -/
def isBreak (c : Char) : Bool :=
  c = '\n' || c = '\r' || c.toNat = 0x85 || c.toNat = 0x2028 || c.toNat = 0x2029

/-- Line breaks with a carriage return as line feeds. -/
def unifyBreaks : List Char → List Char
  | [] => []
  | '\r' :: '\n' :: rest => '\n' :: unifyBreaks rest
  | '\r' :: rest => '\n' :: unifyBreaks rest
  | c :: rest => c :: unifyBreaks rest

/-- What a line break says: the separators of lines and of paragraphs stay, others are line
feeds. -/
def breakText (c : Char) : Char :=
  if c.toNat = 0x2028 ∨ c.toNat = 0x2029 then c else '\n'

/-- A blank, a line break or nothing follows. -/
def isBlankNext : List Char → Bool
  | [] => true
  | c :: _ => c = ' ' || c = '\t' || isBreak c

/-- What is left of a text, and the column it starts in. -/
structure Cursor where
  rest : List Char
  column : Nat

namespace Cursor

/-- Go past blanks, line breaks and comments; `true` when a line break was passed. -/
def skipFrom : List Char → (column : Nat) → (newline comment : Bool) → Cursor × Bool
  | [], column, newline, _ => (⟨[], column⟩, newline)
  | c :: rest, column, newline, comment =>
    if isBreak c then skipFrom rest 0 true false
    else if comment || c = ' ' then skipFrom rest (column + 1) newline comment
    else if c = '#' then skipFrom rest (column + 1) newline true
    else (⟨c :: rest, column⟩, newline)

/-- The next part, and whether it is on a later line. -/
def next (c : Cursor) : Cursor × Bool :=
  skipFrom c.rest c.column false false

/-- Go past the first `n` characters, none of which is a line break. -/
def drop (c : Cursor) (n : Nat) : Cursor :=
  ⟨c.rest.drop n, c.column + n⟩

/-- A marker of the start or the end of a document. -/
def isMarker (c : Cursor) : Bool :=
  c.column = 0 && ((c.rest.take 3 = ['-', '-', '-'] || c.rest.take 3 = ['.', '.', '.']) &&
    isBlankNext (c.rest.drop 3))

/-- Nothing is left of the document. -/
def isEnd (c : Cursor) : Bool :=
  c.rest.isEmpty || c.isMarker

/-- An item of a list starts here. -/
def isDash (c : Cursor) : Bool :=
  match c.rest with
  | '-' :: rest => isBlankNext rest && !c.isMarker
  | _ => false

/-- A place behind a part whose column does not matter, on a line that only a comment may end. -/
def behind (rest : List Char) : Cursor :=
  ⟨rest, rest.length + 1000000⟩

end Cursor

/-! ### Line breaks within scalars -/

/-- Blanks and line breaks: the blanks before the first break, what the breaks say, and what
follows, with its column. -/
structure Gap where
  blanks : List Char
  breaks : List Char
  cursor : Cursor

/-- Read the blanks and the line breaks at a place; what was read so far is given last one first. -/
def gapFrom : List Char → (column : Nat) → (blanks breaks : List Char) → Gap
  | [], column, blanks, breaks => ⟨blanks.reverse, breaks.reverse, ⟨[], column⟩⟩
  | c :: rest, column, blanks, breaks =>
    if isBreak c then gapFrom rest 0 blanks (breakText c :: breaks)
    else if c = ' ' || c = '\t' then
      gapFrom rest (column + 1) (if breaks.isEmpty then c :: blanks else blanks) breaks
    else ⟨blanks.reverse, breaks.reverse, ⟨c :: rest, column⟩⟩

/-- The gap at a place. -/
def gapAt (cs : List Char) (column : Nat) : Gap :=
  gapFrom cs column [] []

/-- What a gap says within a scalar: its blanks, or its breaks. The first break is folded if it is
a line feed: it is a blank when it is the only one and nothing otherwise. -/
def Gap.text (g : Gap) : List Char :=
  match g.breaks with
  | [] => g.blanks
  | ['\n'] => [' ']
  | '\n' :: more => more
  | breaks => breaks

end RuleAudit.Yaml
