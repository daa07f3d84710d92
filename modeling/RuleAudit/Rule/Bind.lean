import RuleAudit.Dnf.Substitute
import RuleAudit.Rule.Build

/-!
# Binding variables

Known values are plugged into the rules of a set. A pin is a rule that says that a variable has a
value; binding a variable of a set normally leaves a pin for it behind, so that the value stays part
of the set.
-/

namespace RuleAudit

variable {K : Type} [Scalar K]

/-- The kind of variable that a value is for. -/
def Datum.kindOfValue : Datum K → VarKind
  | .int _ => .numeric
  | .real _ => .numeric
  | _ => .categorical

/-- The name of the pin of a variable. -/
def pinName (var : String) : String :=
  ".const_" ++ var

namespace Rule

/-- The rule that a variable has a value. Without a kind, numbers are for numeric variables. -/
def pin (var value : Datum K) (kind : Option VarKind) : Except (Error K) (Rule K) := do
  let clause : Clause K ← match kind.getD value.kindOfValue with
    | .numeric =>
      pure (.linear (← LinearClause.make [(var, .real 1)] (.text Relation.eq.symbol) value))
    | .categorical =>
      pure (.membership (← MembershipClause.make var (.text value.label) (.bool false)))
  make (.text (pinName var.label)) (.atom clause)

/-- A normal form says nothing but that a variable has one value. -/
def isPinOf (dnf : Dnf K) (var : String) : Bool :=
  match dnf with
  | [[.linear c]] => c.relation = .eq && c.vars == [var]
  | [[.membership c]] => c.subject == var && !c.negated && c.labels.length == 1
  | _ => false

/-- The rule says nothing but that a variable has one value. -/
def pins (r : Rule K) (var : String) : Except (Error K) Bool :=
  return isPinOf (← r.dnf) var

/-- The rule with values plugged in; a rule without these variables stays as it is. -/
def substitute (r : Rule K) (values : Assignment K) (tol : K) : Except (Error K) (Rule K) := do
  if (← r.vars).any (Assoc.has · values) then
    ofDnf (.text r.name) (← (← r.dnf).substitute values tol)
  else return r

end Rule

namespace RuleSet

/-- Check that a value suits its variable: the kind of the variable. -/
def checkBinding (kinds : List (String × VarKind)) (var : String) (value : Datum K) :
    Except (Error K) VarKind :=
  let unboundable : Error K := .flaw (.unboundable var value)
  match (Assoc.get? var kinds).getD value.kindOfValue with
  | .numeric => match value with
    | .int n =>
      if (Scalar.ofInt? n : Option K).isSome then .ok .numeric else .error (.overflow .integer)
    | .real x => if Scalar.isFinite x then .ok .numeric else .error unboundable
    | _ => .error unboundable
  | .categorical => match value with
    | .null => .error (.flaw (.bindingNull var))
    | _ => .ok .categorical

/-- The set with values plugged in, followed by pins for the values if these are wanted. Earlier
pins of the same variables make way for them. -/
def substitute (s : RuleSet K) (bindings : Assignment K) (addPins : Bool) :
    Except (Error K) (RuleSet K) := do
  let known ← s.kinds
  let kinds ← bindings.mapM fun (var, value) => checkBinding known var value
  let replaced := if addPins then bindings.map fun b => pinName b.1 else []
  let rules ← (s.without replaced).rules.mapM fun r => r.substitute bindings 0
  let pins ← if addPins then
      (bindings.zip kinds).mapM fun (b, kind) => Rule.pin (.text b.1) b.2 (some kind)
    else pure []
  ofList (rules ++ pins)

end RuleSet

end RuleAudit
