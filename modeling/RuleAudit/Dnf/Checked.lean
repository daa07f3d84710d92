import RuleAudit.Clause.Build
import RuleAudit.Dnf.Reduce

/-!
# Reducing and negating with checks

A disjunction may hold foreign clauses, and some of these cannot be compared with others; reducing
it is then an error. The opposite of a clause is a clause made anew, or two, so its numbers are
checked again.
-/

namespace RuleAudit

variable {K : Type} [Scalar K]

namespace Dnf

/-- Reducing the disjunction compares no foreign clause that cannot be compared. -/
def checkComparable (dnf : Dnf K) : Except (Error K) Unit :=
  match uncomparable? dnf with
  | some kind => .error (.mistyped (.notKey kind))
  | none => .ok ()

/-- The reduced form of a disjunction that may hold foreign clauses. -/
def reduceChecked (dnf : Dnf K) : Except (Error K) (Dnf K) := do
  dnf.checkComparable
  return dnf.reduce

end Dnf

/-! ### Negated clauses -/

/-- The relation that holds where a given one fails; an equality fails on two sides. -/
def Relation.negate : Relation → List Relation
  | le => [gt]
  | lt => [ge]
  | ge => [lt]
  | gt => [le]
  | eq => [lt, gt]

/-- The disjunction that says the opposite of a clause. -/
def Clause.negate : Clause K → Except (Error K) (Dnf K)
  | linear c => c.relation.negate.mapM fun r =>
      return [linear (← c.rebuild (fun _ => true) r c.rhs)]
  | membership c => .ok [[membership c.negate]]
  | foreign v => .error (.flaw (.clauseType v.kindName))

end RuleAudit
