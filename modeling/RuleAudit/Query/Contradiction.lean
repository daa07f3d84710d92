import RuleAudit.Query.Culprits

/-!
# Contradictions

A rule is contradicted by the rules that cannot hold with it although they can hold alone, and, if
these do not explain every conflict, by the members of one least conflict of the remaining rules
with it. Conflicts of the remaining rules among themselves are set aside first.
-/

namespace RuleAudit

variable {K : Type} [Scalar K]

namespace Oracle

variable (o : Oracle K)

/-- Leave out every rule without which the rest still conflicts with `target`. -/
def shrink (target : Rule K) : List (Rule K) → List (Rule K) → Except (Error K) (List (Rule K))
  | kept, [] => .ok kept
  | kept, r :: rest => do
    if ← o.feasible (target :: (kept ++ rest)) "shrinking conflict" then
      shrink target (kept ++ [r]) rest
    else shrink target kept rest

/-- The members of a least conflict of some rules with `target`, if there is one and they do not
conflict among themselves. -/
def jointConflict (target : Rule K) (rules : List (Rule K)) :
    Except (Error K) (List String) := do
  if rules.isEmpty then return []
  if ← o.feasible (target :: rules) ("joint check for '" ++ target.name ++ "'") then return []
  let core ← o.shrink target [] rules
  if core.isEmpty then return []
  if ← o.feasible core "checking conflict without target" then return core.map (·.name)
  return []

/-- Rules without the conflicts among themselves. -/
def settle (target : Rule K) (rules : List (Rule K)) : Except (Error K) (List (Rule K)) := do
  if rules.isEmpty then return []
  if ← o.feasible rules ("checking the rules besides '" ++ target.name ++ "'") then return rules
  return (← o.makeFeasible (← RuleSet.ofList rules)).rules

/-- The names of the rules that contradict a rule, in order of declaration. -/
def contradictedBy (s : RuleSet K) (name : String) : Reported K (List String) := do
  let target ← s.item name
  if !(← o.feasible [target] ("checking '" ++ name ++ "' alone")) then
    Reported.warn (.infeasibleRule name)
    return []
  Reported.lift do
    let others := s.rules.filter (·.name != name)
    let candidates ← others.filterM fun r =>
      o.feasible [r] ("checking '" ++ r.name ++ "' alone")
    let compatible ← candidates.filterM fun r =>
      o.feasible [target, r] ("pairing '" ++ name ++ "' with '" ++ r.name ++ "'")
    let isCompatible (r : Rule K) := compatible.any (·.name == r.name)
    let conflicts := (candidates.filter (!isCompatible ·)).map (·.name)
    let joint ← o.jointConflict target (← o.settle target compatible)
    return s.names.filter fun n => conflicts.contains n || joint.contains n

end Oracle

end RuleAudit
