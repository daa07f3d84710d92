import RuleAudit.Query

/-!
# Rules to blame for infeasibility

The culprits of an infeasible set are rules whose removal makes it feasible: the first subset of
the least size, as long as the settings allow that size; otherwise the rules that are left over when
rules are dropped in order until the rest is feasible and then taken back where possible.
-/

namespace RuleAudit

variable {K : Type} [Scalar K]

/-- The sublists of a length, by the places of their items. -/
def combinations {α : Type} : Nat → List α → List (List α)
  | 0, _ => [[]]
  | _ + 1, [] => []
  | n + 1, a :: rest => (combinations n rest).map (a :: ·) ++ combinations (n + 1) rest

namespace Oracle

variable (o : Oracle K)

/-- Drop rules from the front until the rest is feasible: the dropped ones and the rest. -/
def relax : List (Rule K) → Except (Error K) (List (Rule K) × List (Rule K))
  | [] => .ok ([], [])
  | r :: rest => do
    if ← o.feasible (r :: rest) "relaxing rules" then return ([], r :: rest)
    let (dropped, active) ← relax rest
    return (r :: dropped, active)

/-- Take dropped rules back one by one while the others stay feasible: the names that stay
dropped. -/
def takeBack (s : RuleSet K) (active : List String) :
    List (Rule K) → Except (Error K) (List String)
  | [] => .ok []
  | r :: rest => do
    let trial := s.only (r.name :: active)
    if ← o.feasible trial.rules ("re-enabling '" ++ r.name ++ "'") then takeBack s trial.names rest
    else return r.name :: (← takeBack s active rest)

/-- The rules that are left over by relaxing a set and taking rules back. -/
def trim (s : RuleSet K) : Except (Error K) (List String) := do
  let (dropped, active) ← o.relax s.rules
  o.takeBack s (active.map (·.name)) dropped

/-- The first removable subset of one of the given sizes. -/
def removable (s : RuleSet K) : List Nat → Except (Error K) (Option (List String))
  | [] => .ok none
  | size :: rest => do
    let test (names : List String) :=
      o.feasible (s.without names).rules ("removing " ++ shownNames (K := K) names)
    match ← o.first test (combinations size s.names) with
    | some names => return some names
    | none => removable s rest

/-- The names of rules whose removal makes a set feasible. -/
def culprits (s : RuleSet K) : Except (Error K) (List String) := do
  if ← o.isFeasible s then return []
  let most ← o.settings.removals s.size
  match ← o.removable s ((List.range most).map (· + 1)) with
  | some names => return names
  | none => o.trim s

/-- The set without its culprits. -/
def makeFeasible (s : RuleSet K) : Except (Error K) (RuleSet K) :=
  return s.without (← o.culprits s)

end Oracle

end RuleAudit
