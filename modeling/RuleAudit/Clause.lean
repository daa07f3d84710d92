import RuleAudit.Datum

/-!
# Clauses

The atoms of a rule. A linear clause compares a weighted sum of numeric variables with a constant;
a membership clause says that a categorical variable takes one of some labels, or none of them.
Both are kept in one form each: coefficients and labels ascend without repetition, and no
coefficient is zero, so two clauses with the same content are equal.

Data that are no clause can stand where one is expected; `Clause.foreign` keeps them, so that the
place can be reported when the rule is normalised.
-/

namespace RuleAudit

/-- Whether a variable ranges over numbers or over labels. -/
inductive VarKind where
  | numeric
  | categorical
deriving DecidableEq, Repr

/-- The word for a kind of variable. -/
def VarKind.name : VarKind → String
  | numeric => "numeric"
  | categorical => "categorical"

/-! ### Relations -/

/-- How a linear clause compares its two sides. -/
inductive Relation where
  | le
  | lt
  | eq
  | ge
  | gt
deriving DecidableEq, Repr

namespace Relation

/-- All relations, in the order in which messages list them. -/
def all : List Relation :=
  [le, lt, eq, ge, gt]

/-- The sign of a relation. -/
def symbol : Relation → String
  | le => "<="
  | lt => "<"
  | eq => "=="
  | ge => ">="
  | gt => ">"

/-- The relation with a given sign. -/
def ofSymbol? (s : String) : Option Relation :=
  all.find? fun r => r.symbol == s

/-- The relation excludes the boundary. -/
def isStrict : Relation → Bool
  | lt => true
  | gt => true
  | _ => false

variable {K : Type} [Scalar K]

/-- Compare two numbers; a relation that includes the boundary accepts `tol` of slack. -/
def holds (r : Relation) (lhs rhs tol : K) : Bool :=
  match r with
  | le => decide (lhs ≤ rhs + tol)
  | lt => decide (lhs < rhs)
  | ge => decide (rhs - tol ≤ lhs)
  | gt => decide (rhs < lhs)
  | eq => decide (Scalar.abs (lhs - rhs) ≤ tol)

end Relation

/-! ### Linear clauses -/

/-- `sum (coefficient * variable) <relation> rhs`. -/
structure LinearClause (K : Type) [Scalar K] where
  terms : List (String × K)
  relation : Relation
  rhs : K
  /-- Names ascend, so none occurs twice. -/
  ascending : terms.Pairwise fun s t => s.1 < t.1
  /-- Only variables that matter are listed. -/
  nonzero : ∀ t ∈ terms, (t.2 == 0) = false
  /-- Every variable has a name. -/
  named : ∀ t ∈ terms, t.1 ≠ ""

namespace LinearClause

variable {K : Type} [Scalar K]

/-- Clauses are equal when their coefficients, relation and right side are. -/
instance : BEq (LinearClause K) where
  beq c d := c.terms == d.terms && c.relation == d.relation && c.rhs == d.rhs

/-- The variables of a clause, ascending. -/
def vars (c : LinearClause K) : List String :=
  c.terms.map (·.1)

/-- One summand as a text; the coefficient one is left out. -/
def termText (t : String × K) : String :=
  if t.2 == 1 then t.1 else Scalar.brief t.2 ++ "*" ++ t.1

/-- The clause as a text. -/
def toText (c : LinearClause K) : String :=
  let lhs := if c.terms.isEmpty then "0" else String.intercalate " + " (c.terms.map termText)
  lhs ++ " " ++ c.relation.symbol ++ " " ++ Scalar.brief c.rhs

end LinearClause

/-! ### Membership clauses -/

/-- `variable in labels`, or `variable not in labels`. Membership in no label is always false and
exclusion from no label always true. -/
structure MembershipClause where
  subject : String
  labels : List String
  negated : Bool
  /-- Labels ascend, so none occurs twice. -/
  ascending : labels.Pairwise (· < ·)
  /-- The variable has a name. -/
  named : subject ≠ ""
deriving DecidableEq

namespace MembershipClause

/-- The clause as a text. -/
def toText (c : MembershipClause) : String :=
  c.subject ++ (if c.negated then " not in \x7b" else " in \x7b") ++
    String.intercalate ", " c.labels ++ "\x7d"

end MembershipClause

/-! ### Clauses of either kind -/

/-- An atom of a rule. -/
inductive Clause (K : Type) [Scalar K] where
  | linear (clause : LinearClause K)
  | membership (clause : MembershipClause)
  | foreign (value : Datum K)

/-- A conjunction of clauses. -/
abbrev Term (K : Type) [Scalar K] := List (Clause K)

/-- A disjunction of terms: none is always false, an empty term always true. -/
abbrev Dnf (K : Type) [Scalar K] := List (Term K)

namespace Clause

variable {K : Type} [Scalar K]

instance : BEq (Clause K) where
  beq
    | linear c, linear d => c == d
    | membership c, membership d => c == d
    | foreign v, foreign w => v.same w
    | _, _ => false

/-- The variables of a clause. -/
def vars : Clause K → List String
  | linear c => c.vars
  | membership c => [c.subject]
  | foreign _ => []

/-- The clause as a text. -/
def toText : Clause K → String
  | linear c => c.toText
  | membership c => c.toText
  | foreign v => v.label

end Clause

end RuleAudit
