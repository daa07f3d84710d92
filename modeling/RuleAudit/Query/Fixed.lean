import RuleAudit.Query
import RuleAudit.Rule.Bind

/-!
# Fixed variables

A variable is fixed when it has the same value wherever the rules hold. A point gives the value; it
is the only one when the rules cannot hold at a distance of `epsilon` from it, on either side, or,
for a label, without it. So a range narrower than `epsilon` counts as one value.
-/

namespace RuleAudit

variable {K : Type} [Scalar K]

/-- A value that a variable can be fixed to. -/
inductive FixedValue (K : Type) where
  | number (x : K)
  | label (l : String)

/-- The value as a datum. -/
def FixedValue.toDatum : FixedValue K → Datum K
  | number x => .real x
  | label l => .text l

/-- The value to test for a reading: a number to nine places, or a label. -/
def Reading.candidate? : Reading K → Option (FixedValue K)
  | number x => some (.number (Scalar.round 9 x))
  | label (some l) => some (.label l)
  | label none => none

/-- The rules that hold only at other values. -/
def FixedValue.probes (epsilon : K) (var : String) : FixedValue K → Except (Error K) (List (Rule K))
  | number x => do
    let side (sign : String) (relation : Relation) (bound : K) : Except (Error K) (Rule K) := do
      Rule.make (.text ("~" ++ var ++ sign))
        (.atom (.linear (← LinearClause.ofPairs [(var, 1)] relation bound)))
    return [← side "<" .le (x - epsilon), ← side ">" .ge (x + epsilon)]
  | label l => do
    let clause ← MembershipClause.make (K := K) (.text var) (.text l) (.bool true)
    return [← Rule.make (.text ("~" ++ var)) (.atom (.membership clause))]

namespace Oracle

variable (o : Oracle K)

/-- No rule of a list can hold together with a set. -/
def excludesAll (s : RuleSet K) (context : String) (rules : List (Rule K)) :
    Except (Error K) Bool :=
  rules.allM fun r => return !(← o.feasible (s.rules ++ [r]) context)

/-- The value of a variable if it is fixed, given its reading at some point. -/
def fixedValue? (s : RuleSet K) (var : String) (reading : Reading K) :
    Except (Error K) (Option (FixedValue K)) :=
  match reading.candidate? with
  | none => return none
  | some value => do
    let probes ← value.probes o.settings.epsilon.value var
    return if ← o.excludesAll s ("probing '" ++ var ++ "'") probes then some value else none

/-- The variables that have one value only, in order of first use. -/
def fixed (s : RuleSet K) : Reported K (List (String × FixedValue K)) := do
  let found ← o.check s
  if !found.feasible then
    Reported.warn (.infeasibleSet .fixedVariables)
    return []
  Reported.lift do
    let values ← (← s.kinds).mapM fun (var, _) =>
      match Assoc.get? var found.assignment with
      | some reading => return (← o.fixedValue? s var reading).map fun v => (var, v)
      | none => .error (.missing (.entry var))
    return values.filterMap id

end Oracle

end RuleAudit
