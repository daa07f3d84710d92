import RuleAudit.Program

/-!
# Decision variables for the variables of rules

A numeric variable has one continuous variable, bounded in magnitude by the settings. A categorical
variable has one binary indicator for every label in use and one more for all other labels.
-/

namespace RuleAudit

/-- The name of the decision variable of a numeric variable. -/
def numericName (var : String) : String :=
  "num[" ++ var ++ "]"

/-- The name of the indicator of a label. -/
def indicatorName (var : String) : Option String → String
  | none => "cat[" ++ var ++ "]*"
  | some label => "cat[" ++ var ++ "=" ++ label ++ "]"

variable {K : Type} [Scalar K]

/-- The decision variables of the rules' variables. -/
structure Vocabulary (K : Type) where
  numeric : List (String × DecisionVar K)
  indicators : List (String × List (Option String × DecisionVar K))

namespace Vocabulary

/-- The decision variables of numeric variables. -/
def numericVars (settings : Settings K) (vars : List String) : List (String × DecisionVar K) :=
  Assoc.ofPairs (vars.map fun v =>
    let bound := settings.bound v
    (v, ⟨numericName v, .continuous, -bound, bound⟩))

/-- The indicator of a label. -/
def indicator (var : String) (label : Option String) : DecisionVar K :=
  ⟨indicatorName var label, .binary, 0, 1⟩

/-- The indicators of the given labels and of all others. -/
def indicatorsOf (var : String) (labels : List (Option String)) :
    List (Option String × DecisionVar K) :=
  Assoc.ofPairs ((labels ++ [none]).map fun l => (l, indicator var l))

/-- The decision variables of numeric variables and of categorical variables with labels. -/
def make (settings : Settings K) (numeric : List String)
    (labels : List (String × List (Option String))) : Vocabulary K where
  numeric := numericVars settings numeric
  indicators := (Assoc.ofPairs labels).map fun (v, ls) => (v, indicatorsOf v ls)

/-- All decision variables, the numeric ones first. -/
def vars (v : Vocabulary K) : List (DecisionVar K) :=
  v.numeric.map (·.2) ++ v.indicators.flatMap fun (_, is) => is.map (·.2)

/-- The decision variable of a numeric variable. -/
def numericVar (v : Vocabulary K) (name : String) : Except (Error K) (DecisionVar K) :=
  match Assoc.get? name v.numeric with
  | some d => .ok d
  | none => .error (.missing (.entry name))

/-- The indicators of a categorical variable. -/
def labelVars (v : Vocabulary K) (name : String) :
    Except (Error K) (List (Option String × DecisionVar K)) :=
  match Assoc.get? name v.indicators with
  | some is => .ok is
  | none => .error (.missing (.entry name))

/-- The indicator of a label among those of its variable. -/
def labelVar (indicators : List (Option String × DecisionVar K)) (label : String) :
    Except (Error K) (DecisionVar K) :=
  match Assoc.get? (some label) indicators with
  | some d => .ok d
  | none => .error (.missing (.entry label))

end Vocabulary

end RuleAudit
