/-!
# Association lists in order of first arrival

Tables whose order shows: a new key goes to the end, and writing to a present key keeps its place.
-/

namespace RuleAudit.Assoc

variable {α β : Type} [BEq α]

/-- Write a value to a key. -/
def put (key : α) (value : β) : List (α × β) → List (α × β)
  | [] => [(key, value)]
  | (k, v) :: rest => if k == key then (k, value) :: rest else (k, v) :: put key value rest

/-- The table of a list of pairs; of several values for a key the last one counts. -/
def ofPairs (pairs : List (α × β)) : List (α × β) :=
  pairs.foldl (fun l p => put p.1 p.2 l) []

/-- The value of a key. -/
def get? (key : α) (l : List (α × β)) : Option β :=
  (l.find? (·.1 == key)).map (·.2)

/-- The key has a value. -/
def has (key : α) (l : List (α × β)) : Bool :=
  l.any (·.1 == key)

/-- Add `a` to the end of a list without repetition. -/
def enlist (a : α) (l : List α) : List α :=
  if l.contains a then l else l ++ [a]

end RuleAudit.Assoc
