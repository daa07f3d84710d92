import RuleAudit.Dnf.Reduce
import RuleAudit.Expr

/-!
# Rules and rule sets

A rule is a named expression. Its normal form may come with it: a rule that was made from a
normal form keeps it, and its expression is read off it. A rule set is a list of rules with
pairwise different names, in order of declaration.

Rules are equal when their names and their expressions are. A constant may be a datum that is not
equal to itself, since an undefined number is not; so an expression can also carry a mark, and
expressions of one mark count as equal without a look at them.
-/

namespace RuleAudit

/-- A named rule. -/
structure Rule (K : Type) [Scalar K] where
  name : String
  expr : Expr K
  /-- The normal form that the expression was made from. -/
  normal? : Option (Dnf K)
  /-- A name is more than white space. -/
  named : ¬ Text.Blank name
  /-- A normal form that is kept is reduced, and the expression says the same. -/
  read_off : ∀ d ∈ normal?, d.IsReduced ∧ expr = Expr.ofDnf d
  /-- Tells the expression from equally written ones. -/
  mark? : Option Nat := none

namespace Rule

variable {K : Type} [Scalar K]

/-- Two rules have an expression of the same mark. -/
def sharesMark (r s : Rule K) : Bool :=
  r.mark?.isSome && r.mark? == s.mark?

/-- Rules are equal when their names and expressions are. -/
instance : BEq (Rule K) where
  beq r s := r.name == s.name && (r.sharesMark s || r.expr == s.expr)

end Rule

/-- Uniquely named rules, in order of declaration. -/
structure RuleSet (K : Type) [Scalar K] where
  rules : List (Rule K)
  distinct : (rules.map (·.name)).Nodup

namespace RuleSet

variable {K : Type} [Scalar K]

instance : BEq (RuleSet K) where
  beq a b := a.rules == b.rules

/-- The names of the rules, in order. -/
def names (s : RuleSet K) : List String :=
  s.rules.map (·.name)

/-- The number of rules. -/
def size (s : RuleSet K) : Nat :=
  s.rules.length

/-- The set without rules. -/
def empty : RuleSet K :=
  ⟨[], List.nodup_nil⟩

/-- The rule with a given name. -/
def find? (s : RuleSet K) (name : String) : Option (Rule K) :=
  s.rules.find? fun r => r.name == name

/-- A rule of that name is in the set. -/
def contains (s : RuleSet K) (name : String) : Bool :=
  s.names.contains name

/-- The rules that pass a test. -/
def filter (s : RuleSet K) (keep : Rule K → Bool) : RuleSet K :=
  ⟨s.rules.filter keep, s.distinct.sublist (List.filter_sublist.map _)⟩

/-- The set without the named rules. -/
def without (s : RuleSet K) (names : List String) : RuleSet K :=
  s.filter fun r => !names.contains r.name

/-- The set of the named rules only. -/
def only (s : RuleSet K) (names : List String) : RuleSet K :=
  s.filter fun r => names.contains r.name

end RuleSet

end RuleAudit
