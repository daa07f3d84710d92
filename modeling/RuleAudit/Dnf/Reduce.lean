import RuleAudit.Clause

/-!
# Reduced normal forms

A disjunction of terms is reduced by deciding the clauses without variables, dropping the terms
that are false, and keeping the first of equal clauses and equal terms. A true term makes the
whole disjunction the marker `Dnf.verum`; a disjunction without terms is always false.
-/

namespace RuleAudit

variable {K : Type} [Scalar K]

/-- The truth value of a clause that depends on no variable. -/
def Clause.constant? : Clause K → Option Bool
  | linear c => if c.terms.isEmpty then some (c.relation.holds 0 c.rhs 0) else none
  | membership c => if c.labels.isEmpty then some c.negated else none
  | foreign _ => none

namespace Dnf

/-- The disjunction that is always true. -/
def verum : Dnf K := [[]]

/-- The disjunction that is always false. -/
def falsum : Dnf K := []

/-- The clauses of a term that depend on a variable, or nothing if another clause is false. -/
def reduceTerm (term : Term K) : Option (Term K) :=
  if term.any (·.constant? == some false) then none
  else some (term.filter (·.constant? == none))

/-- The reduced form of a disjunction. -/
def reduce (dnf : Dnf K) : Dnf K :=
  let terms := dnf.filterMap reduceTerm
  if terms.any (·.isEmpty) then verum else (terms.map (·.eraseDups)).eraseDups

/-- The disjunction is the reduced form of some disjunction. -/
def IsReduced (dnf : Dnf K) : Prop :=
  ∃ given, reduce given = dnf

/-- The conjunction of two disjunctions. -/
def cross (left right : Dnf K) : Dnf K :=
  (left.flatMap fun a => right.map fun b => (a ++ b).eraseDups).eraseDups

/-- The conjunction of several disjunctions. -/
def conj (parts : List (Dnf K)) : Dnf K :=
  reduce (parts.foldl cross verum)

/-- The disjunction of several disjunctions. -/
def disj (parts : List (Dnf K)) : Dnf K :=
  reduce parts.flatten

/-- The kind of a foreign clause that cannot be compared with others, if reducing would have to. -/
def uncomparable? : Dnf K → Option String
  | [] => none
  | term :: rest => match reduceTerm term with
    | none => uncomparable? rest
    | some [] => none
    | some kept =>
      let kind := kept.findSome? fun
        | .foreign v => if v.isKey then none else some v.kindName
        | _ => none
      kind <|> uncomparable? rest

end Dnf

end RuleAudit
