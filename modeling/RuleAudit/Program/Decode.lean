import RuleAudit.Program
import RuleAudit.Error

/-!
# Reading points

A point of a program is read back as values of the rules' variables. A categorical variable has
the label of its largest indicator, the first one of several, and no label when the indicator of
all other labels is the largest.
-/

namespace RuleAudit

/-- The value of a variable of a rule. -/
inductive Reading (V : Type) where
  | number (x : V)
  | label (l : Option String)

/-- The value as a datum; null stands for every label without an indicator. -/
def Reading.toDatum {V : Type} : Reading V → Datum V
  | number x => .real x
  | label (some l) => .text l
  | label none => .null

namespace Program

variable {K V : Type} [Scalar K]

/-- The value of a decision variable. -/
def valueAt (point : List (String × V)) (name : String) : Except (Error K) V :=
  match Assoc.get? name point with
  | some x => .ok x
  | none => .error (.missing (.entry name))

variable [LT V] [DecidableLT V]

/-- The label with the largest value, the first one of several. -/
def largest (best : Option String × V) : List (Option String × V) → Option String
  | [] => best.1
  | next :: rest => largest (if best.2 < next.2 then next else best) rest

/-- The label that a point gives to a categorical variable. -/
def chosen (point : List (String × V)) (indicators : Indicators) :
    Except (Error K) (Option String) := do
  match ← indicators.mapM fun (l, name) => return (l, ← valueAt point name) with
  | [] => .error (.invalid .noLabels)
  | first :: rest => return largest first rest

/-- The values of the rules' variables at a point: the numeric ones first. -/
def decode (p : Program K) (point : List (String × V)) :
    Except (Error K) (List (String × Reading V)) := do
  let numbers ← p.numeric.mapM fun (v, name) => return (v, .number (← valueAt point name))
  let labels ← p.indicators.mapM fun (v, is) => return (v, .label (← chosen point is))
  return Assoc.ofPairs (numbers ++ labels)

end Program

end RuleAudit
