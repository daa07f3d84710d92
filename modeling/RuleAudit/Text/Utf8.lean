/-!
# UTF-8 with replacement

Bytes are read as UTF-8. Where they form no character, the longest beginning of one, or else a
single byte, is read as one replacement character.
-/

namespace RuleAudit.Text

/-- The bytes of a character. -/
def bytesOf (c : Char) : List UInt8 :=
  (String.singleton c).toUTF8.toList

/-- The least and the greatest byte that may stand in a place. -/
structure ByteRange where
  least : Nat
  greatest : Nat

namespace ByteRange

/-- The bytes behind the first one of a character, as a rule. -/
def tail : ByteRange :=
  ⟨0x80, 0xBF⟩

/-- A byte may stand in the place. -/
def accepts (r : ByteRange) (b : UInt8) : Bool :=
  decide (r.least ≤ b.toNat ∧ b.toNat ≤ r.greatest)

end ByteRange

/-- What may follow the first byte of a character; nothing when no character begins with it. The
second byte is bounded so that every character has one form and surrogates have none. -/
def bytesAfter? (first : UInt8) : Option (List ByteRange) :=
  let b := first.toNat
  if b < 0x80 then some []
  else if b < 0xC2 then none
  else if b < 0xE0 then some [.tail]
  else if b = 0xE0 then some [⟨0xA0, 0xBF⟩, .tail]
  else if b = 0xED then some [⟨0x80, 0x9F⟩, .tail]
  else if b < 0xF0 then some [.tail, .tail]
  else if b = 0xF0 then some [⟨0x90, 0xBF⟩, .tail, .tail]
  else if b < 0xF4 then some [.tail, .tail, .tail]
  else if b = 0xF4 then some [⟨0x80, 0x8F⟩, .tail, .tail]
  else none

/-- How many bytes fit, one after the other. -/
def countAccepted : List ByteRange → List UInt8 → Nat
  | r :: rs, b :: bs => if r.accepts b then countAccepted rs bs + 1 else 0
  | _, _ => 0

/-- The character that its bytes write. -/
def charOfBytes (first : UInt8) (more : List UInt8) : Char :=
  let lead := match more.length with
    | 0 => first.toNat
    | 1 => first.toNat % 0x20
    | 2 => first.toNat % 0x10
    | _ => first.toNat % 0x08
  Char.ofNat (more.foldl (fun n b => 64 * n + b.toNat % 64) lead)

/-- What stands for bytes that form no character. -/
def replacement : Char :=
  Char.ofNat 0xFFFD

/-- The characters of at most `fuel` bytes. -/
def decodeBytes : Nat → List UInt8 → List Char
  | 0, _ => []
  | _, [] => []
  | fuel + 1, first :: rest => match bytesAfter? first with
    | none => replacement :: decodeBytes fuel rest
    | some ranges =>
      let n := countAccepted ranges rest
      let c := if n = ranges.length then charOfBytes first (rest.take n) else replacement
      c :: decodeBytes fuel (rest.drop n)

/-- The text of some bytes. -/
def ofBytes (bytes : List UInt8) : String :=
  String.ofList (decodeBytes bytes.length bytes)

end RuleAudit.Text
