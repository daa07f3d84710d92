import RuleAudit.Assoc
import RuleAudit.Dnf.Checked

/-!
# Normal forms of expressions

Conjunctions distribute, disjunctions concatenate, negation is pushed down to the clauses, and
`if a then b` is read as `not a or b`. Terms and clauses keep the order of first appearance.

On the way every atom is counted, antecedents before consequents, and the kind of every variable
is recorded, so that an atom that is no clause, or that uses a variable with another kind than
before, is reported with its number whatever becomes of it in the normal form.
-/

namespace RuleAudit

variable {K : Type} [Scalar K]

/-- How many atoms have been met, and the kinds of the variables in them. -/
structure Census where
  next : Nat
  kinds : List (String × VarKind)

/-- Nothing has been met. -/
def Census.start : Census :=
  ⟨0, []⟩

/-- Record one variable. -/
def Census.registerVar (site : Site K) (kind : VarKind) (kinds : List (String × VarKind))
    (name : String) : Except (Error K) (List (String × VarKind)) :=
  match Assoc.get? name kinds with
  | none => .ok (kinds ++ [(name, kind)])
  | some seen =>
    if seen = kind then .ok kinds
    else .error (.definition site (.kindClash .sameRule name kind seen))

/-- Count a clause and record its variables. -/
def Census.register (rule : Datum K) (census : Census) (clause : Clause K) :
    Except (Error K) Census :=
  let site : Site K := ⟨rule, some census.next⟩
  let enter (kind : VarKind) := do
    return ⟨census.next + 1, ← clause.vars.foldlM (registerVar site kind) census.kinds⟩
  match clause with
  | .linear _ => enter .numeric
  | .membership _ => enter .categorical
  | .foreign v => .error (.definition site (.clauseType v.kindName))

namespace Expr

mutual
/-- The normal form of an expression, or of its negation when `positive` is false. -/
def normalize (rule : Datum K) : Expr K → Bool → Census → Except (Error K) (Dnf K × Census)
  | atom c, positive, census => do
    let census ← census.register rule c
    let dnf ← if positive then pure [[c]] else c.negate
    return (Dnf.reduce dnf, census)
  | const v, positive, census => .ok (if v.truth == positive then Dnf.verum else Dnf.falsum, census)
  | not e, positive, census => normalize rule e (!positive) census
  | ifThen a c, positive, census => do
    let (a, census) ← normalize rule a (!positive) census
    let (c, census) ← normalize rule c positive census
    return (if positive then Dnf.disj [a, c] else Dnf.conj [a, c], census)
  | and args, positive, census => do
    let (parts, census) ← normalizeEach rule args positive census
    return (if positive then Dnf.conj parts else Dnf.disj parts, census)
  | or args, positive, census => do
    let (parts, census) ← normalizeEach rule args positive census
    return (if positive then Dnf.disj parts else Dnf.conj parts, census)
  | foreign v, _, census => .error (.definition ⟨rule, some census.next⟩ (.nodeType v.kindName))

/-- The normal forms of several expressions, from left to right. -/
def normalizeEach (rule : Datum K) :
    List (Expr K) → Bool → Census → Except (Error K) (List (Dnf K) × Census)
  | [], _, census => .ok ([], census)
  | e :: rest, positive, census => do
    let (part, census) ← normalize rule e positive census
    let (parts, census) ← normalizeEach rule rest positive census
    return (part :: parts, census)
end

/-- The normal form of an expression; `rule` names it in errors. -/
def toDnf (e : Expr K) (rule : Datum K) : Except (Error K) (Dnf K) :=
  return (← normalize rule e true .start).1

/-- The normal form of the negation. -/
def negate (e : Expr K) (rule : Datum K) : Except (Error K) (Dnf K) :=
  return (← normalize rule e false .start).1

end Expr

/-- The kinds of the variables of a normal form, in order of first use. -/
def Dnf.kinds (dnf : Dnf K) (rule : Datum K) : Except (Error K) (List (String × VarKind)) :=
  return (← dnf.flatten.foldlM (Census.register rule) .start).kinds

end RuleAudit
