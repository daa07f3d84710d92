/-!
# Parts of a text

A text is cut at every occurrence of a character.
-/

namespace RuleAudit.Text

/-- The parts of a list of characters between the occurrences of `sep`, one more than there are
occurrences. -/
def parts (sep : Char) (cs : List Char) : List (List Char) :=
  cs.foldr (fun c parts => if c = sep then [] :: parts else match parts with
    | part :: rest => (c :: part) :: rest
    | [] => [[c]]) [[]]

end RuleAudit.Text
