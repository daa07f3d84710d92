import RuleAudit.Query.Fixed
import RuleAudit.Query.Implication

/-!
# Simplification

Rules are simplified by plugging in the variables that are fixed, by dropping the terms of a rule
that cannot hold with the other rules, and by dropping the rules that follow from the others. The
three steps are repeated until a round changes nothing. An infeasible set is left alone.
-/

namespace RuleAudit

variable {K : Type} [Scalar K]

namespace Oracle

variable (o : Oracle K)

/-! ### Fixed variables -/

/-- The bindings that matter to a rule: those of its variables, unless the rule is the pin. -/
def bindingsFor (r : Rule K) (values : Assignment K) : Except (Error K) (Assignment K) := do
  let vars ← r.vars
  let dnf ← r.dnf
  return vars.filterMap fun var =>
    if Rule.isPinOf dnf var then none else (Assoc.get? var values).map fun v => (var, v)

/-- The slack for clauses whose variables all have values, which are rounded. -/
def substitutionSlack : K :=
  Scalar.ofRat (1 / 1000000)

/-- A rule with fixed variables plugged in, unless it then always holds. -/
def substituteFixed (values : Assignment K) (r : Rule K) : Except (Error K) (Option (Rule K)) := do
  let bindings ← bindingsFor r values
  let new ← if bindings.isEmpty then pure r else r.substitute bindings substitutionSlack
  return if ← new.isTautology then none else some new

/-- The set with fixed variables plugged in. A pin is added for every variable that has none. -/
def simplifyFixed (s : RuleSet K) : Reported K (RuleSet K) := do
  let fixed ← o.fixed s
  Reported.lift do
    let values := fixed.map fun (var, value) => (var, value.toDatum)
    let targets ← values.filterM fun target =>
      s.rules.anyM fun r => return !(← bindingsFor r [target]).isEmpty
    if targets.isEmpty then return s
    let kinds ← s.kinds
    let rules ← s.rules.filterMapM (substituteFixed targets)
    let pins ← targets.filterMapM fun (var, value) => do
      if ← rules.anyM (·.pins var) then return none
      return some (← Rule.pin (.text var) value (Assoc.get? var kinds))
    RuleSet.ofList (rules ++ pins)

/-! ### Terms that cannot hold -/

/-- The terms of a rule that can hold with other rules. -/
def livingTerms (others : List (Rule K)) (name : String) (dnf : Dnf K) :
    Except (Error K) (Dnf K) :=
  dnf.filterM fun term => do
    o.feasible (others ++ [← Rule.ofDnf (.text ("~" ++ name)) [term]])
      ("testing a term of '" ++ name ++ "'")

/-- Drop the dead terms of one rule. -/
def dropTerms (s : RuleSet K) (name : String) : Except (Error K) (RuleSet K) := do
  let dnf ← (← s.item name).dnf
  if dnf.length < 2 then return s
  let kept ← o.livingTerms (s.rules.filter (·.name != name)) name dnf
  if kept.length < dnf.length then s.replace (← Rule.ofDnf (.text name) kept) else return s

/-- The set without the terms of longer rules that the other rules exclude. -/
def simplifyConditional (s : RuleSet K) : Reported K (RuleSet K) := do
  if !(← o.isFeasible s) then
    Reported.warn (.infeasibleSet .conditionalSimplification)
    return s
  Reported.lift (s.names.foldlM o.dropTerms s)

/-! ### Rounds -/

/-- One round. -/
def simplifyRound (s : RuleSet K) : Reported K (RuleSet K) := do
  o.removeRedundancy (← o.simplifyConditional (← o.simplifyFixed s))

/-- Repeat rounds until one changes nothing; an error after `n` rounds that do. -/
def simplifyRounds (limit : Nat) : Nat → RuleSet K → Reported K (RuleSet K)
  | 0, s => throw (.notConverged limit s)
  | n + 1, s => do
    let next ← o.simplifyRound s
    if next == s then return s else simplifyRounds limit n next

/-- Simplify a set, after plugging in known values if there are any. -/
def simplify (s : RuleSet K) (bindings : Assignment K) : Reported K (RuleSet K) := do
  let s ← if bindings.isEmpty then pure s else Reported.lift (s.substitute bindings true)
  if !(← o.isFeasible s) then
    Reported.warn (.infeasibleSet .simplification)
    return s
  let limit := max 1 s.size
  o.simplifyRounds limit (limit + 1) s

end Oracle

end RuleAudit
