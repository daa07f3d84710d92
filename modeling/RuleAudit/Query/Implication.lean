import RuleAudit.Query

/-!
# Implication and redundancy

A rule implies another one when it cannot hold together with the other's opposite. A rule is
redundant when the other rules imply it jointly; removing redundant rules one after the other keeps,
of equivalent rules, the last.
-/

namespace RuleAudit

variable {K : Type} [Scalar K]

namespace Oracle

variable (o : Oracle K)

/-- The names of the rules that imply a rule on their own. -/
def impliedBy (s : RuleSet K) (name : String) : Except (Error K) (List String) := do
  let target ← s.item name
  let opposite ← target.opposite
  let others := s.rules.filter (·.name != name)
  let implying ← others.filterM fun r => return !(← o.feasible [r, opposite]
    ("testing '" ++ r.name ++ "' => '" ++ name ++ "'"))
  return implying.map (·.name)

/-- A rule follows from some others. -/
def isRedundant (others : List (Rule K)) (r : Rule K) : Except (Error K) Bool := do
  if ← r.isTautology then return true
  return !(← o.feasible (others ++ [← r.opposite]) ("testing redundancy of '" ++ r.name ++ "'"))

/-- Whether each rule follows from all the others. -/
def redundancy (s : RuleSet K) : Except (Error K) (List (String × Bool)) :=
  s.rules.mapM fun r => do
    return (r.name, ← o.isRedundant (s.rules.filter (·.name != r.name)) r)

/-- The rules that are kept when each of the later ones is dropped if it follows from the rest. -/
def prune : List (Rule K) → List (Rule K) → Except (Error K) (List (Rule K))
  | kept, [] => .ok kept
  | kept, r :: rest => do
    if ← o.isRedundant (kept ++ rest) r then prune kept rest else prune (kept ++ [r]) rest

/-- The set without the rules that follow from those still kept. An infeasible set stays as it
is. -/
def removeRedundancy (s : RuleSet K) : Reported K (RuleSet K) := do
  if !(← o.isFeasible s) then
    Reported.warn (.infeasibleSet .redundancyRemoval)
    return s
  Reported.lift do RuleSet.ofList (← o.prune [] s.rules)

end Oracle

end RuleAudit
