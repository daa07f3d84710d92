import RuleAudit.Clause

/-!
# Rule expressions

Expression trees over clauses. A constant keeps the datum it was given and counts as true or
false by `Datum.truth`; `Expr.foreign` keeps data that are no expression.
-/

namespace RuleAudit

/-- The expression tree of a rule. -/
inductive Expr (K : Type) [Scalar K] where
  | atom (clause : Clause K)
  | const (value : Datum K)
  | and (args : List (Expr K))
  | or (args : List (Expr K))
  | not (arg : Expr K)
  | ifThen (antecedent consequent : Expr K)
  | foreign (value : Datum K)

namespace Expr

variable {K : Type} [Scalar K]

/-- The always true expression. -/
def verum : Expr K :=
  const (.bool true)

/-- The always false expression. -/
def falsum : Expr K :=
  const (.bool false)

mutual
/-- Equality of expressions, node by node; constants are compared by value. -/
def same : Expr K → Expr K → Bool
  | atom c, e => match e with
    | atom d => c == d
    | _ => false
  | const v, e => match e with
    | const w => v.same w
    | _ => false
  | and xs, e => match e with
    | and ys => sameArgs xs ys
    | _ => false
  | or xs, e => match e with
    | or ys => sameArgs xs ys
    | _ => false
  | not x, e => match e with
    | not y => same x y
    | _ => false
  | ifThen a c, e => match e with
    | ifThen b d => same a b && same c d
    | _ => false
  | foreign v, e => match e with
    | foreign w => v.same w
    | _ => false

/-- Equality of two lists of arguments. -/
def sameArgs : List (Expr K) → List (Expr K) → Bool
  | [], ys => ys.isEmpty
  | x :: xs, ys => match ys with
    | y :: ys => same x y && sameArgs xs ys
    | [] => false
end

instance : BEq (Expr K) := ⟨same⟩

/-- The expression of a nonempty conjunction of clauses. -/
def ofTerm (term : Term K) : Expr K :=
  match term with
  | [c] => atom c
  | cs => and (cs.map atom)

/-- The expression of a normal form. -/
def ofDnf (dnf : Dnf K) : Expr K :=
  if dnf.isEmpty then falsum
  else if dnf.any (·.isEmpty) then verum
  else match dnf with
    | [term] => ofTerm term
    | terms => or (terms.map ofTerm)

end Expr

end RuleAudit
