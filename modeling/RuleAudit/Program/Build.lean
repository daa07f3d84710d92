import RuleAudit.Program.Rows
import RuleAudit.Rule.Build

/-!
# Programs of rules

The program of a list of rules is feasible exactly when the rules can hold together: it has the
variables of all rules, one label for every categorical variable, and the rows of every rule.
-/

namespace RuleAudit

variable {K : Type} [Scalar K]

/-- Kinds and labels of the variables of some rules. -/
structure Usage where
  kinds : List (String × VarKind)
  labels : List (String × List String)

namespace Usage

/-- Add the variables of a rule. -/
def add (u : Usage) (r : Rule K) : Except (Error K) Usage := do
  let kinds ← mergeKinds .otherRules (.text r.name) u.kinds (← r.kinds)
  return ⟨kinds, (← r.dnf).flatten.foldl RuleSet.addLabels u.labels⟩

/-- The variables of all rules; one that is used with two kinds is an error. -/
def ofRules (rules : List (Rule K)) : Except (Error K) Usage :=
  rules.foldlM add ⟨[], []⟩

/-- The variables of a kind, in order of first use. -/
def ofKind (u : Usage) (kind : VarKind) : List String :=
  (u.kinds.filter (·.2 = kind)).map (·.1)

/-- The decision variables for the variables in use. -/
def vocabulary (u : Usage) (settings : Settings K) : Vocabulary K :=
  Vocabulary.make settings (u.ofKind .numeric) ((u.ofKind .categorical).map fun v =>
    (v, ((Assoc.get? v u.labels).getD []).map some))

end Usage

namespace Program

/-- The encodings of rules, the first one at a position. -/
def encodings (vocabulary : Vocabulary K) (settings : Settings K) :
    Nat → List (Rule K) → Except (Error K) (List (String × Encoding K))
  | _, [] => .ok []
  | position, r :: rest => do
    let encoding ← Encoding.ofDnf position r.name (← r.dnf) vocabulary settings
    return (r.name, encoding) :: (← encodings vocabulary settings (position + 1) rest)

/-- The program of a list of rules. Names may repeat; the selectors of the last rule of a name are
the ones that are kept under it. -/
def ofRules (rules : List (Rule K)) (settings : Settings K) : Except (Error K) (Program K) := do
  let usage ← Usage.ofRules rules
  let vocabulary := usage.vocabulary settings
  let parts ← encodings vocabulary settings 0 rules
  return {
    vars := vocabulary.vars ++ parts.flatMap (·.2.vars)
    rows := vocabulary.exactlyOne ++ parts.flatMap (·.2.rows)
    numeric := vocabulary.numeric.map fun (v, d) => (v, d.name)
    indicators := vocabulary.indicators.map fun (v, is) => (v, is.map fun (l, d) => (l, d.name))
    selectors := Assoc.ofPairs ((parts.filter (!·.2.selectors.isEmpty)).map fun (name, e) =>
      (name, e.selectors)) }

/-! ### Clauses outside the box -/

/-- A clause on one variable whose boundary lies outside the variable's box. -/
def isOutside (settings : Settings K) (c : LinearClause K) : Bool :=
  match c.terms with
  | [(name, coef)] => decide (settings.bound name < Scalar.abs (c.rhs / coef))
  | _ => false

/-- The notice about a clause outside the box. -/
def outsideNotice (settings : Settings K) (rule : String) (c : LinearClause K) : List String :=
  c.terms.map fun (name, _) =>
    "[Encoding] rule '" ++ rule ++ "': '" ++ c.toText ++ "' lies outside the big-M box |" ++ name ++
      "| <= " ++ Scalar.brief (settings.bound name)

/-- The notices about all clauses outside the box, in order. -/
def notices (rules : List (Rule K)) (settings : Settings K) : Except (Error K) (List String) :=
  return (← rules.mapM fun r => return (← r.dnf).flatten.flatMap fun c => match c with
    | .linear c => if isOutside settings c then outsideNotice settings r.name c else []
    | _ => []).flatten

end Program

end RuleAudit
