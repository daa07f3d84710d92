import RuleAudit.Yaml.Style

/-!
# Writing YAML

Data are written as blocks: two columns of indentation a level, the dashes of a list in the column
of its key, and brackets only for what is empty.
-/

namespace RuleAudit.Yaml

variable {K : Type} [Scalar K]

/-- Blanks at the start of a line. -/
def spaces (n : Nat) : List Char :=
  List.replicate n ' '

mutual
/-- A datum that starts in column `indent`. -/
def writeAt (indent : Nat) : Datum K → List Char
  | .list [] => "[]\n".toList
  | .list (d :: ds) => '-' :: ' ' :: writeAt (indent + 2) d ++ writeItems indent ds
  | .mapping [] => "\x7b\x7d\n".toList
  | .mapping ((k, v) :: es) =>
    writeEntry indent (scalarOf k indent indent) v ++ writeEntries indent es
  | d => scalarOf d indent indent ++ ['\n']

/-- The items of a list with dashes in column `indent`, each on a new line. -/
def writeItems (indent : Nat) : List (Datum K) → List Char
  | [] => []
  | d :: ds => spaces indent ++ '-' :: ' ' :: writeAt (indent + 2) d ++ writeItems indent ds

/-- The entries of a mapping with keys in column `indent`, each on a new line. -/
def writeEntries (indent : Nat) : List (Datum K × Datum K) → List Char
  | [] => []
  | (k, v) :: es =>
    spaces indent ++ writeEntry indent (scalarOf k indent indent) v ++ writeEntries indent es

/-- An entry whose key is in column `indent`. -/
def writeEntry (indent : Nat) (key : List Char) : Datum K → List Char
  | .list [] => key ++ ": []\n".toList
  | .list (d :: ds) => key ++ ':' :: '\n' :: writeItems indent (d :: ds)
  | .mapping [] => key ++ ": \x7b\x7d\n".toList
  | .mapping (e :: es) => key ++ ':' :: '\n' :: writeEntries (indent + 2) (e :: es)
  | d => key ++ ':' :: ' ' :: scalarOf d (indent + key.length + 2) (indent + 2) ++ ['\n']
end

/-- A datum as a text. -/
def write (d : Datum K) : String :=
  String.ofList (writeAt 0 d)

end RuleAudit.Yaml
