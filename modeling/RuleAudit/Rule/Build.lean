import RuleAudit.Dnf.Normalize

/-!
# Making rules and rule sets

A rule is made from a name and an expression, or from a name and a normal form. `RuleSet.ofList`
demands different names; `RuleSet.collect` also checks the definition of each rule and the kinds
of its variables against the rules before it, and skips what does not fit unless told to be
strict.
-/

namespace RuleAudit

variable {K : Type} [Scalar K]

namespace Rule

/-- Read the name of a rule. -/
def readName (name : Datum K) : Except (Error K) { s : String // ¬ Text.Blank s } :=
  match name with
  | .text s => if h : ¬ Text.Blank s then .ok ⟨s, h⟩ else .error (.flaw (.ruleName name))
  | d => .error (.flaw (.ruleName d))

/-- Make a rule from a name and an expression. -/
def make (name : Datum K) (expr : Expr K) : Except (Error K) (Rule K) := do
  let ⟨name, named⟩ ← readName name
  return { name, expr, normal? := none, named, read_off := by simp }

/-- Make a rule from a name and a normal form. -/
def ofDnf (name : Datum K) (dnf : Dnf K) : Except (Error K) (Rule K) := do
  dnf.checkComparable
  let ⟨name, named⟩ ← readName name
  return {
    name, named
    expr := Expr.ofDnf dnf.reduce
    normal? := some dnf.reduce
    read_off := by rintro _ ⟨⟩; exact ⟨⟨dnf, rfl⟩, rfl⟩ }

/-- The normal form of a rule. -/
def dnf (r : Rule K) : Except (Error K) (Dnf K) :=
  match r.normal? with
  | some d => .ok d
  | none => r.expr.toDnf (.text r.name)

/-- The normal form of the negation of a rule. -/
def negation (r : Rule K) : Except (Error K) (Dnf K) :=
  r.expr.negate (.text r.name)

/-- The variables of a rule, in order of first use. -/
def vars (r : Rule K) : Except (Error K) (List String) := do
  (← r.dnf).flatten.foldlM (fun vars c => match c with
    | .foreign v => .error (.lacks v.kindName "variables")
    | c => return c.vars.foldl (fun vars v => Assoc.enlist v vars) vars) []

/-- The rule always holds. -/
def isTautology (r : Rule K) : Except (Error K) Bool :=
  return (← r.dnf).any (·.isEmpty)

/-- The rule never holds. -/
def isContradiction (r : Rule K) : Except (Error K) Bool :=
  return (← r.dnf).isEmpty

/-- The rule under another name. -/
def renamed (r : Rule K) (name : Datum K) : Except (Error K) (Rule K) := do
  let ⟨name, named⟩ ← readName name
  return { r with name, named }

/-- The kinds of the variables of a rule, in order of first use. -/
def kinds (r : Rule K) : Except (Error K) (List (String × VarKind)) := do
  (← r.dnf).kinds (.text r.name)

end Rule

/-- Add the kinds of a rule's variables to a table; a variable that the table has with another
kind is an error. -/
def mergeKinds (clash : Clash) (rule : Datum K) (kinds : List (String × VarKind)) :
    List (String × VarKind) → Except (Error K) (List (String × VarKind))
  | [] => .ok kinds
  | (name, kind) :: rest =>
    match Assoc.get? name kinds with
    | none => mergeKinds clash rule (kinds ++ [(name, kind)]) rest
    | some seen =>
      if seen = kind then mergeKinds clash rule kinds rest
      else .error (.definition ⟨rule, none⟩ (.kindClash clash name kind seen))

namespace RuleSet

/-- The first rule whose name an earlier rule has. -/
def firstDuplicate? : List String → List (Rule K) → Option String
  | _, [] => none
  | seen, r :: rest => if seen.contains r.name then some r.name else
      firstDuplicate? (r.name :: seen) rest

/-- The set of the given rules; two rules of one name are an error. -/
def ofList (rules : List (Rule K)) : Except (Error K) (RuleSet K) :=
  if h : (rules.map (·.name)).Nodup then .ok ⟨rules, h⟩
  else
    let name := (firstDuplicate? [] rules).getD ""
    .error (.definition ⟨.text name, none⟩ .duplicateRule)

/-- The set of the given rules, some of which may be data that are no rule. -/
def ofMixed (rules : List (Rule K ⊕ Datum K)) : Except (Error K) (RuleSet K) := do
  let rec check : List String → List (Rule K ⊕ Datum K) → Except (Error K) (List (Rule K))
    | _, [] => .ok []
    | _, .inr d :: _ => .error (.mistyped (.notRule d))
    | seen, .inl r :: rest =>
      if seen.contains r.name then .error (.definition ⟨.text r.name, none⟩ .duplicateRule)
      else return r :: (← check (r.name :: seen) rest)
  ofList (← check [] rules)

/-- Rules that fit together, with the kinds of their variables. -/
structure Collected (K : Type) [Scalar K] where
  rules : List (Rule K)
  kinds : List (String × VarKind)

/-- Add a rule to those collected, if its name is new, it has a normal form and it uses every
variable as before. -/
def Collected.add (c : Collected K) (r : Rule K) : Except (Error K) (Collected K) := do
  if c.rules.any (·.name == r.name) then
    .error (.definition ⟨.text r.name, none⟩ .duplicateRule)
  else
    let kinds ← r.kinds
    return ⟨c.rules ++ [r], ← mergeKinds .earlierRules (.text r.name) c.kinds kinds⟩

/-- The rules that fit with those before them. The others are skipped with a warning, or are an
error when `strict`. Only an error in a definition lets a rule be skipped. -/
def Collected.run (strict : Bool) (c : Collected K) : List (Rule K) → Reported K (Collected K)
  | [] => pure c
  | r :: rest =>
    match c.add r with
    | .ok c => run strict c rest
    | .error e => match strict, e with
      | false, .definition .. => do
        Reported.warn (.skippedRule e)
        run strict c rest
      | _, e => throw e

/-- The set of the rules that fit with those before them. -/
def collect (rules : List (Rule K)) (strict : Bool) : Reported K (RuleSet K) := do
  let c ← Collected.run strict ⟨[], []⟩ rules
  ofList c.rules

/-- The rule of a name. -/
def item (s : RuleSet K) (name : String) : Except (Error K) (Rule K) :=
  match s.find? name with
  | some r => .ok r
  | none => .error (.missing (.rule name s.names))

/-- The set with the rule of the same name exchanged. -/
def replace (s : RuleSet K) (rule : Rule K) : Except (Error K) (RuleSet K) :=
  if s.contains rule.name then
    ofList (s.rules.map fun r => if r.name == rule.name then rule else r)
  else .error (.missing (.replaced rule.name))

/-- The set with more rules at the end. -/
def extend (s : RuleSet K) (rules : List (Rule K)) : Except (Error K) (RuleSet K) :=
  ofList (s.rules ++ rules)

/-- The kinds of all variables, in order of first use. -/
def kinds (s : RuleSet K) : Except (Error K) (List (String × VarKind)) :=
  s.rules.foldlM (fun kinds r => do
    mergeKinds .earlierRules (.text r.name) kinds (← r.kinds)) []

/-- Add the labels of a clause to those of its variable. -/
def addLabels (labels : List (String × List String)) : Clause K → List (String × List String)
  | .membership c =>
    let known := (Assoc.get? c.subject labels).getD []
    let all := c.labels.foldl (fun ls l => MembershipClause.insertLabel l ls) known
    Assoc.put c.subject all labels
  | _ => labels

/-- The labels used for each categorical variable, ascending. -/
def labels (s : RuleSet K) : Except (Error K) (List (String × List String)) :=
  s.rules.foldlM (fun labels r => return (← r.dnf).flatten.foldl addLabels labels) []

end RuleSet

end RuleAudit
