import RuleAudit.Assoc
import RuleAudit.Clause.Build

/-!
# Truth under an assignment

An expression is evaluated directly on the values of its variables. Relations that include the
boundary accept a slack; strict ones are compared exactly. The null value of a categorical
variable stands for a label that no clause mentions.
-/

namespace RuleAudit

variable {K : Type} [Scalar K]

/-- Values of variables, in order. -/
abbrev Assignment (K : Type) := List (String × Datum K)

/-- The value of a variable. -/
def Assignment.value (values : Assignment K) (name : String) : Except (Error K) (Datum K) :=
  match Assoc.get? name values with
  | some v => .ok v
  | none => .error (.flaw (.noValue name))

/-- The value of a sum, added up from the left. -/
def LinearClause.sum (c : LinearClause K) (values : Assignment K) : Except (Error K) K :=
  c.terms.foldlM (fun total (name, coef) => do
    return total + coef * (← (← values.value name).toNumber)) 0

/-- A label is among the labels of a clause; null is among none. -/
def MembershipClause.accepts (c : MembershipClause) (value : Datum K) : Bool :=
  let inside := match value with
    | .null => false
    | v => c.labels.contains v.label
  inside != c.negated

/-- A clause is true. -/
def Clause.holds (c : Clause K) (values : Assignment K) (tol : K) : Except (Error K) Bool :=
  match c with
  | linear c => return c.relation.holds (← c.sum values) c.rhs tol
  | membership c => return c.accepts (← values.value c.subject)
  | foreign v => .error (.flaw (.clauseType v.kindName))

namespace Expr

mutual
/-- An expression is true. Arguments are evaluated from left to right until one decides. -/
def holds : Expr K → Assignment K → K → Except (Error K) Bool
  | atom c, values, tol => c.holds values tol
  | const v, _, _ => .ok v.truth
  | and args, values, tol => holdsAll args values tol
  | or args, values, tol => holdsAny args values tol
  | not e, values, tol => return !(← holds e values tol)
  | ifThen a c, values, tol => do
    if ← holds a values tol then holds c values tol else return true
  | foreign v, _, _ => .error (.flaw (.nodeType v.kindName))

/-- All of several expressions are true. -/
def holdsAll : List (Expr K) → Assignment K → K → Except (Error K) Bool
  | [], _, _ => .ok true
  | e :: rest, values, tol => do
    if ← holds e values tol then holdsAll rest values tol else return false

/-- One of several expressions is true. -/
def holdsAny : List (Expr K) → Assignment K → K → Except (Error K) Bool
  | [], _, _ => .ok false
  | e :: rest, values, tol => do
    if ← holds e values tol then return true else holdsAny rest values tol
end

end Expr

end RuleAudit
