import RuleAudit.Tree.Linear

/-!
# Reading rule trees

A rule is written as nested mappings with one operator each: `and`, `or`, `not` and their signs,
`if` with `then`, comparisons of linear expressions, memberships `in` and `not in`, and equality
with a label. A truth value is a constant.
-/

namespace RuleAudit.Tree

variable {K : Type} [Scalar K]

/-- Read the name of a categorical variable, bare or under `var`. -/
def variableName (rule : Datum K) (d : Datum K) : Except (Error K) VarName :=
  let d := match d with
    | .mapping [(.text "var", name)] => name
    | d => d
  match d with
  | .text s => if h : s ≠ "" then .ok ⟨s, h⟩ else .error (flaw rule (.expectedVariable d))
  | d => .error (flaw rule (.expectedVariable d))

/-- The label in a mapping with the one key `label`. -/
def label? : Datum K → Option (Datum K)
  | .mapping [(.text "label", value)] => some value
  | _ => none

/-- Equality of a variable with a label, or the opposite. -/
def labelComparison (rule : Datum K) (negated : Bool) (name label : Datum K) :
    Except (Error K) (Expr K) := do
  let name ← variableName rule name
  return .atom (.membership (.ofLabels name [label.label] negated))

/-- Compare two linear expressions: all variables go to the left side. -/
def linearComparison (rule : Datum K) (relation : Relation) (lhs rhs : Datum K) :
    Except (Error K) (Expr K) := do
  let left ← linear rule lhs
  let difference := left.add ((← linear rule rhs).scale (-1))
  return .atom (.linear (← LinearClause.ofPairs difference.coefs relation (-difference.const)))

/-- Read a comparison; `!=` is the negation of an equality. -/
def comparison (rule : Datum K) (op : String) (args : List (Datum K)) :
    Except (Error K) (Expr K) :=
  match args with
  | [lhs, rhs] =>
    if op = "==" ∨ op = "!=" then
      match label? lhs, label? rhs with
      | some label, _ => labelComparison rule (op = "!=") rhs label
      | none, some label => labelComparison rule (op = "!=") lhs label
      | none, none => do
        let equality ← linearComparison rule .eq lhs rhs
        return if op = "==" then equality else .not equality
    else match Relation.ofSymbol? op with
      | some r => linearComparison rule r lhs rhs
      | none => .error (flaw rule (.relation (.text op)))
  | args => .error (flaw rule (.twoOperands op args.length))

/-- Read a membership. -/
def membership (rule : Datum K) (op : String) (args : List (Datum K)) :
    Except (Error K) (Expr K) :=
  match args with
  | [name, .list labels] => do
    let name ← variableName rule name
    return .atom (.membership (.ofLabels name (labels.map Datum.label) (op = "not in")))
  | _ => .error (flaw rule (.membershipShape op))

/-- The signs of a comparison. -/
def comparisonSigns : List String :=
  ["<=", "<", "==", ">=", ">", "!="]

mutual
/-- Read an expression. -/
def expr (rule : Datum K) : Datum K → Except (Error K) (Expr K)
  | .bool b => .ok (.const (.bool b))
  | .mapping entries => node rule entries
  | d => .error (flaw rule (.expectedBoolean d))

/-- Read the operator of an expression. -/
def node (rule : Datum K) : List (Datum K × Datum K) → Except (Error K) (Expr K)
  | [(.text "if", a), (.text "then", c)] => return .ifThen (← expr rule a) (← expr rule c)
  | [(.text "then", c), (.text "if", a)] => return .ifThen (← expr rule a) (← expr rule c)
  | [(.text op, value)] =>
    if op = "not" ∨ op = "!" then return .not (← expr rule value)
    else match value with
      | .list args =>
        if op = "and" ∨ op = "&&" then return .and (← exprs rule args)
        else if op = "or" ∨ op = "||" then return .or (← exprs rule args)
        else if comparisonSigns.contains op then comparison rule op args
        else if op = "in" ∨ op = "not in" then membership rule op args
        else .error (flaw rule (.unknownOperator (.text op)))
      | value =>
        if op ∈ ["and", "&&", "or", "||", "in", "not in"] ∨ comparisonSigns.contains op then
          .error (flaw rule (.operandList op value))
        else .error (flaw rule (.unknownOperator (.text op)))
  | [(op, _)] => .error (flaw rule (.unknownOperator op))
  | entries => .error (manyKeys rule entries)

/-- Read several expressions from left to right. -/
def exprs (rule : Datum K) : List (Datum K) → Except (Error K) (List (Expr K))
  | [] => .ok []
  | d :: rest => return (← expr rule d) :: (← exprs rule rest)
end

end RuleAudit.Tree

namespace RuleAudit

variable {K : Type} [Scalar K]

/-- Read a rule and check that it has a normal form. -/
def Rule.ofTree (name tree : Datum K) : Except (Error K) (Rule K) := do
  let rule ← make name (← Tree.expr name tree)
  let _ ← rule.dnf
  return rule

end RuleAudit
