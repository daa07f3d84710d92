import RuleAudit.Tree.Reader

/-!
# Writing rule trees

The inverse of reading, up to arithmetic: a linear clause is written as a weighted sum on the left
of its relation and a number on the right. A coefficient of one is left out, and the empty sum is
the integer zero.
-/

namespace RuleAudit.Tree

variable {K : Type} [Scalar K]

/-- One summand of a linear clause. -/
def ofTerm (t : String × K) : Datum K :=
  if t.2 == 1 then .text t.1 else .record [("*", .list [.real t.2, .text t.1])]

/-- The left side of a linear clause. -/
def ofTerms : List (String × K) → Datum K
  | [] => .int 0
  | [t] => ofTerm t
  | terms => .record [("+", .list (terms.map ofTerm))]

/-- The tree of a clause. -/
def ofClause : Clause K → Except (Error K) (Datum K)
  | .linear c => .ok (.record [(c.relation.symbol, .list [ofTerms c.terms, .real c.rhs])])
  | .membership c =>
    .ok (.record [(if c.negated then "not in" else "in",
      .list [.text c.subject, .list (c.labels.map .text)])])
  | .foreign v => .error (.lacks v.kindName "negated")

mutual
/-- The tree of an expression. -/
def ofExpr : Expr K → Except (Error K) (Datum K)
  | .const v => .ok (.bool v.truth)
  | .atom c => ofClause c
  | .and args => return .record [("and", .list (← ofExprs args))]
  | .or args => return .record [("or", .list (← ofExprs args))]
  | .not e => return .record [("not", ← ofExpr e)]
  | .ifThen a c => return .record [("if", ← ofExpr a), ("then", ← ofExpr c)]
  | .foreign v => .error (.flaw (.nodeType v.kindName))

/-- The trees of several expressions. -/
def ofExprs : List (Expr K) → Except (Error K) (List (Datum K))
  | [] => .ok []
  | e :: rest => return (← ofExpr e) :: (← ofExprs rest)
end

/-- The item of a rule file for a rule. -/
def ofRule (r : Rule K) : Except (Error K) (Datum K) :=
  return .record [("name", .text r.name), ("expr", ← ofExpr r.expr)]

/-- The items of a rule file for a rule set. -/
def ofRules (s : RuleSet K) : Except (Error K) (List (Datum K)) :=
  s.rules.mapM ofRule

end RuleAudit.Tree
