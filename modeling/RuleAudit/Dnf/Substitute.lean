import RuleAudit.Dnf.Holds
import RuleAudit.Dnf.Reduce

/-!
# Partial evaluation

Values for some variables are plugged into a normal form. A clause that keeps no variable is
decided, with a slack for the relations that include the boundary; the others keep the variables
that have no value, with the rest moved to the right side.
-/

namespace RuleAudit

variable {K : Type} [Scalar K]

/-- The right side less the terms that have a value, from left to right. -/
def LinearClause.residue (c : LinearClause K) (values : Assignment K) : Except (Error K) K :=
  c.terms.foldlM (fun rhs (name, coef) =>
    match Assoc.get? name values with
    | some v => return rhs - coef * (← v.toNumber)
    | none => return rhs) c.rhs

/-- What becomes of a clause: a smaller clause, or a truth value. -/
def Clause.substitute (c : Clause K) (values : Assignment K) (tol : K) :
    Except (Error K) (Clause K ⊕ Bool) :=
  match c with
  | linear c =>
    if c.vars.any (Assoc.has · values) then do
      let rhs ← c.residue values
      if c.vars.all (Assoc.has · values) then return .inr (c.relation.holds 0 rhs tol)
      else return .inl (.linear (← c.rebuild (fun n => !Assoc.has n values) c.relation rhs))
    else .ok (.inl (.linear c))
  | membership c => match Assoc.get? c.subject values with
    | none => .ok (.inl (.membership c))
    | some v => .ok (.inr (c.labels.contains v.label != c.negated))
  | foreign v => .error (.lacks v.kindName "variable")

namespace Dnf

/-- What becomes of a term; nothing when a clause is false. Later clauses are then not looked at. -/
def substituteTerm (values : Assignment K) (tol : K) : Term K → Except (Error K) (Option (Term K))
  | [] => .ok (some [])
  | c :: rest => do
    match ← c.substitute values tol with
    | .inr false => return none
    | .inr true => substituteTerm values tol rest
    | .inl c => return (← substituteTerm values tol rest).map (c :: ·)

/-- The reduced form of a disjunction once some variables have values. -/
def substitute (dnf : Dnf K) (values : Assignment K) (tol : K) : Except (Error K) (Dnf K) := do
  let terms ← dnf.mapM (substituteTerm values tol)
  return reduce (terms.filterMap id)

end Dnf

end RuleAudit
