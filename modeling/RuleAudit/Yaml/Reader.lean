import RuleAudit.Assoc
import RuleAudit.Yaml.Plain
import RuleAudit.Yaml.Scalar

/-!
# Reading YAML

Lists and mappings are written in brackets, or as blocks: the items of a list behind dashes and the
entries of a mapping as lines, all in one column. A list that is the value of a key may stand in the
column of the key. Of several entries with one key the last value counts. Every step of the reader
goes at least one character ahead or one level deeper, so that the length of the text bounds them.

In brackets a question mark may announce a key. Anchors, tags, block scalars and announced keys of
blocks are not read.
-/

namespace RuleAudit.Yaml

variable {K : Type} [Scalar K]

/-- The mapping of some entries, if all keys can be keys. -/
def mappingOf (entries : List (Datum K × Datum K)) : Option (Datum K) :=
  if entries.all (·.1.isKey) then some (.mapping (Assoc.ofPairs entries)) else none

/-! ### Inside brackets -/

/-- The next part inside brackets. -/
def flowNext (cs : List Char) : List Char :=
  (Cursor.next ⟨cs, 1⟩).1.rest

mutual
/-- A value inside brackets, or a value in brackets. -/
def flow : Nat → List Char → Option (Datum K × List Char)
  | 0, _ => none
  | fuel + 1, cs => match cs with
    | '[' :: rest => do
      let (items, rest) ← flowItems fuel (flowNext rest)
      return (.list items, rest)
    | '\x7b' :: rest => do
      let (entries, rest) ← flowEntries fuel (flowNext rest)
      return (← mappingOf entries, rest)
    | cs => match quoted? cs with
      | some (s, rest) => some (.text s, rest)
      | none => (plain? true false 0 ⟨cs, 1⟩).map fun (s, after) => (plainDatum s, after.rest)

/-- A key or a value inside brackets; null when there is none. -/
def flowPart : Nat → List Char → Option (Datum K × List Char)
  | 0, _ => none
  | fuel + 1, cs =>
    let cs := flowNext cs
    if cs.head?.any fun c => [',', ':', ']', '\x7d'].contains c then some (.null, cs)
    else flow fuel cs

/-- The value after a key inside brackets; null when there is no colon. -/
def flowValue : Nat → List Char → Option (Datum K × List Char)
  | 0, _ => none
  | fuel + 1, cs => match flowNext cs with
    | ':' :: rest => flowPart fuel rest
    | rest => some (.null, rest)

/-- The items of a list up to its bracket. An item with a colon is a mapping with one entry. -/
def flowItems : Nat → List Char → Option (List (Datum K) × List Char)
  | 0, _ => none
  | fuel + 1, cs => match cs with
    | ']' :: rest => some ([], rest)
    | cs => do
      let announced := cs.head? = some '?'
      let (item, rest) ← if announced then flowPart fuel cs.tail else flow fuel cs
      let (item, rest) ← if announced || (flowNext rest).head? = some ':' then do
          let (value, rest) ← flowValue fuel rest
          pure (← mappingOf [(item, value)], rest)
        else pure (item, rest)
      match flowNext rest with
      | ',' :: rest =>
        let (items, rest) ← flowItems fuel (flowNext rest)
        return (item :: items, rest)
      | ']' :: rest => return ([item], rest)
      | _ => none

/-- The entries of a mapping up to its brace. A key without a colon has the value null. -/
def flowEntries : Nat → List Char → Option (List (Datum K × Datum K) × List Char)
  | 0, _ => none
  | fuel + 1, cs => match cs with
    | '\x7d' :: rest => some ([], rest)
    | cs => do
      let (key, rest) ← if cs.head? = some '?' then flowPart fuel cs.tail else flow fuel cs
      let (value, rest) ← flowValue fuel rest
      match flowNext rest with
      | ',' :: rest =>
        let (entries, rest) ← flowEntries fuel (flowNext rest)
        return ((key, value) :: entries, rest)
      | '\x7d' :: rest => return ([(key, value)], rest)
      | _ => none
end

/-! ### Blocks -/

/-- A value that is no block: in brackets, in quotes or plain. Its further lines are indented to the
column `least`. -/
def inline? (least : Nat) (cursor : Cursor) : Option (Datum K × Cursor) :=
  match quoted? cursor.rest with
  | some (s, rest) => some (.text s, .behind rest)
  | none => match plain? false false least cursor with
    | some (s, after) => some (plainDatum s, after)
    | none =>
      if cursor.rest.head? = some '[' || cursor.rest.head? = some '\x7b' then
        (flow (4 * cursor.rest.length) cursor.rest).map fun (d, rest) => (d, .behind rest)
      else none

/-- A key and what follows its colon. -/
def key? (cursor : Cursor) : Option (Datum K × Cursor) := do
  let (key, rest) ← match quoted? cursor.rest with
    | some (s, rest) => some (.text s, rest)
    | none => match plain? false true 0 cursor with
      | some (s, after) => some (plainDatum s, after.rest)
      | none =>
        if cursor.rest.head? = some '[' || cursor.rest.head? = some '\x7b' then
          flow (4 * cursor.rest.length) cursor.rest
        else none
  match rest.dropWhile (· = ' ') with
  | ':' :: after => if isBlankNext after then some (key, ⟨after, cursor.column + 1⟩) else none
  | _ => none

mutual
/-- A value whose column is at least `least`; null when the next part is further to the left. -/
def block : Nat → (least : Nat) → Cursor → Option (Datum K × Cursor)
  | 0, _, _ => none
  | fuel + 1, least, cursor =>
    let (cursor, _) := cursor.next
    if cursor.isEnd || cursor.column < least then some (.null, cursor)
    else if cursor.isDash then
      (blockItems fuel cursor.column cursor).map fun (ds, after) => (.list ds, after)
    else match (key? cursor : Option (Datum K × Cursor)) with
      | some _ => do
        let (entries, after) ← blockEntries fuel cursor.column cursor
        return (← mappingOf entries, after)
      | none => inline? least cursor

/-- The items of a list with its dashes in one column. -/
def blockItems : Nat → (column : Nat) → Cursor → Option (List (Datum K) × Cursor)
  | 0, _, _ => none
  | fuel + 1, column, cursor => do
    let (item, after) ← block fuel (column + 1) (cursor.drop 1)
    let (after, _) := after.next
    if after.column = column && after.isDash then
      let (items, after) ← blockItems fuel column after
      return (item :: items, after)
    else return ([item], after)

/-- The value of a key in a column. -/
def blockValue : Nat → (column : Nat) → Cursor → Option (Datum K × Cursor)
  | 0, _, _ => none
  | fuel + 1, column, cursor =>
    let (after, newline) := cursor.next
    if after.isEnd then some (.null, after)
    else if newline then
      if after.column = column && after.isDash then
        (blockItems fuel column after).map fun (ds, after) => (.list ds, after)
      else block fuel (column + 1) after
    else inline? (column + 1) after

/-- The entries of a mapping with its keys in one column. -/
def blockEntries : Nat → (column : Nat) → Cursor → Option (List (Datum K × Datum K) × Cursor)
  | 0, _, _ => none
  | fuel + 1, column, cursor => do
    let (key, after) ← key? cursor
    let (value, after) ← blockValue fuel column after
    let (after, _) := after.next
    if after.column = column && !after.isEnd && !after.isDash then
      let (entries, after) ← blockEntries fuel column after
      return ((key, value) :: entries, after)
    else return ([(key, value)], after)
end

/-- The characters of a text without the mark of byte order that may begin it. -/
def withoutMark (cs : List Char) : List Char :=
  match cs with
  | c :: rest => if c.toNat = 0xFEFF then rest else c :: rest
  | [] => []

/-- Read a text that holds one document. -/
def read? (s : String) : Option (Datum K) := do
  let start := (Cursor.next ⟨withoutMark (unifyBreaks s.toList), 0⟩).1
  let start := if start.isMarker && start.rest.head? = some '-' then start.drop 3 else start
  let (d, after) ← block (4 * (s.length + 1)) 0 start
  if after.next.1.isEnd then return d else none

end RuleAudit.Yaml
