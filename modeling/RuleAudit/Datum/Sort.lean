import RuleAudit.Datum

/-!
# Sorted data

Data are sorted in place of arrival: the run that they begin with is taken as it is, or turned
around when it descends, and every further datum is put into its place by halving. For data with
an order the result is the sorted list; the course matters when some of them have none, since the
first two that are compared in vain are reported, and for undefined numbers.
-/

namespace RuleAudit

/-- Two kinds of data that have no order. -/
structure Incomparable where
  left : String
  right : String
deriving DecidableEq

namespace Datum

variable {K : Type} [Scalar K]

/-- Compare two data. -/
def isLess (a b : Datum K) : Except Incomparable Bool :=
  match a.lt? b with
  | some r => .ok r
  | none => .error ⟨a.kindName, b.kindName⟩

/-- The longest run behind `last` in which every datum is less than the one before it, or in which
none is; `run` holds it so far, the last one first. -/
def takeRun (descending : Bool) (last : Datum K) (run : List (Datum K)) :
    List (Datum K) → Except Incomparable (List (Datum K) × List (Datum K))
  | [] => .ok (last :: run, [])
  | d :: rest => do
    if (← d.isLess last) = descending then takeRun descending d (last :: run) rest
    else return (last :: run, d :: rest)

/-- The run that a list begins with, ascending, and the rest of the list. -/
def firstRun : List (Datum K) → Except Incomparable (List (Datum K) × List (Datum K))
  | a :: b :: rest => do
    let descending ← b.isLess a
    let (run, rest) ← takeRun descending b [a] rest
    return (if descending then run else run.reverse, rest)
  | ds => .ok (ds, [])

/-- Put a datum into its place in a sorted list, behind those that are equal to it. -/
def insertSorted (d : Datum K) (sorted : List (Datum K)) :
    Except Incomparable (List (Datum K)) :=
  match _h : sorted.drop (sorted.length / 2) with
  | [] => .ok [d]
  | middle :: after => do
    let before := sorted.take (sorted.length / 2)
    if ← d.isLess middle then return (← insertSorted d before) ++ middle :: after
    else return before ++ middle :: (← insertSorted d after)
termination_by sorted.length
decreasing_by
  all_goals have hlen := congrArg List.length _h
  all_goals simp only [List.length_drop, List.length_cons] at hlen
  · rw [List.length_take]; omega
  · omega

/-- The data in ascending order; an error when two of them are compared that have no order. -/
def sort (ds : List (Datum K)) : Except Incomparable (List (Datum K)) := do
  let (run, rest) ← firstRun ds
  rest.foldlM (fun sorted d => insertSorted d sorted) run

end Datum

end RuleAudit
