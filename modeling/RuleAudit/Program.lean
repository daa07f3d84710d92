import RuleAudit.Settings

/-!
# Mixed-integer programs

A program asks for values of decision variables, each in its bounds and some of them zero or one,
that satisfy linear rows. A row may hang on a switch: the switch's relief is added to both sides,
so a row whose switch is off is weaker by the relief than one whose switch is on.

A program also remembers what its variables stand for: the variable of every numeric variable of
the rules, the indicator of every label, with one more for all other labels, and the selectors of
the terms of a rule.
-/

namespace RuleAudit

/-- What a decision variable ranges over between its bounds. -/
inductive Domain where
  | continuous
  | binary
deriving DecidableEq, Repr

/-- The word for a domain. -/
def Domain.name : Domain → String
  | continuous => "continuous"
  | binary => "binary"

/-- A variable of a program. -/
structure DecisionVar (K : Type) where
  name : String
  domain : Domain
  lower : K
  upper : K

/-- How a row compares its two sides. -/
inductive Sense where
  | le
  | ge
  | eq
deriving DecidableEq, Repr

/-- The sign of a sense. -/
def Sense.symbol : Sense → String
  | le => "<="
  | ge => ">="
  | eq => "=="

/-- A binary variable that a row hangs on. -/
structure Switch (K : Type) where
  selector : String
  relief : K

/-- `sum (coefficient * variable) <sense> bound`, possibly hanging on a switch. The label says
where the row comes from. -/
structure Row (K : Type) where
  terms : List (String × K)
  sense : Sense
  bound : K
  label : String
  switch : Option (Switch K) := none

namespace Row

variable {K : Type}

/-- The coefficients of a row, its switch included. -/
def coefs (r : Row K) : List (String × K) :=
  match r.switch with
  | none => r.terms
  | some s => r.terms ++ [(s.selector, s.relief)]

/-- The right side of a row, the relief included. -/
def rhs [Add K] (r : Row K) : K :=
  match r.switch with
  | none => r.bound
  | some s => r.bound + s.relief

end Row

/-- The indicators of the labels of one variable; no label stands for every other one. -/
abbrev Indicators := List (Option String × String)

/-- A program, and what its variables stand for. -/
structure Program (K : Type) where
  vars : List (DecisionVar K)
  rows : List (Row K)
  numeric : List (String × String) := []
  indicators : List (String × Indicators) := []
  selectors : List (String × List String) := []
  /-- The sum to be made as small as possible; nothing when any point will do. -/
  objective : List (String × K) := []

end RuleAudit
