import RuleAudit.Tree.Writer

/-!
# Rule sets from lists of items

A rule file lists items with a `name` and an `expr`. An item of another shape is an error. A rule
with a malformed expression is skipped with a warning, or is an error when `strict`; so is a rule
that does not fit with those before it.
-/

namespace RuleAudit.Tree

variable {K : Type} [Scalar K]

/-- The name and the expression of an item. -/
def item (index : Nat) (d : Datum K) : Except (Error K) (String × Datum K) :=
  match d with
  | .mapping entries => match Datum.field? "name" entries, Datum.field? "expr" entries with
    | some name, some expr => match name with
      | .text s =>
        if Text.Blank s then .error (.invalid (.itemName index)) else .ok (Text.strip s, expr)
      | _ => .error (.invalid (.itemName index))
    | _, _ => .error (.invalid (.itemShape index))
  | _ => .error (.invalid (.itemShape index))

/-- An error that lets a rule be skipped. -/
def isSkippable : Error K → Bool
  | .definition .. => true
  | .encoding .. => true
  | _ => false

/-- Read the rules of items from number `index` on. -/
def readItems (strict : Bool) (index : Nat) : List (Datum K) → Reported K (List (Rule K))
  | [] => pure []
  | d :: rest => do
    let (name, tree) ← Reported.lift (item index d)
    match Rule.ofTree (.text name) tree with
    | .ok r => return r :: (← readItems strict (index + 1) rest)
    | .error e =>
      if isSkippable e && !strict then
        Reported.warn (.skippedRule e)
        readItems strict (index + 1) rest
      else throw e

/-- The rule set of a list of items. -/
def ofItems (items : List (Datum K)) (strict : Bool) : Reported K (RuleSet K) := do
  RuleSet.collect (← readItems strict 0 items) strict

end RuleAudit.Tree
