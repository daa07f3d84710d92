import RuleAudit.Program.Variables

/-!
# Rows of rules

A rule in normal form becomes rows:

* a rule of one term has the rows of its clauses;
* the terms of a longer rule have one selector each; their rows hang on it, and one more row asks
  for some selector to be on;
* a rule that always holds has no rows, and one that never holds a row that no point meets.

A strict relation is moved by `epsilon` away from its boundary. The relief of a linear row is the
largest value that its left side takes in the box, plus the magnitude of its right side, plus
`epsilon`, so that a row whose selector is off says nothing inside the box.
-/

namespace RuleAudit

variable {K : Type} [Scalar K]

/-! ### Clauses -/

namespace LinearClause

/-- The relief that makes a clause hold everywhere in the box. -/
def relief (c : LinearClause K) (settings : Settings K) : K :=
  let reach := c.terms.foldl (fun sum (n, a) => sum + Scalar.abs a * settings.bound n) 0
  reach + Scalar.abs c.rhs + settings.epsilon.value

/-- The right side, moved away from a boundary that is excluded. -/
def tightRhs (c : LinearClause K) (settings : Settings K) : K :=
  match c.relation with
  | .lt => c.rhs - settings.epsilon.value
  | .gt => c.rhs + settings.epsilon.value
  | _ => c.rhs

/-- The sense of the rows of a relation. -/
def sense (r : Relation) : Sense :=
  match r with
  | .le => .le
  | .lt => .le
  | .ge => .ge
  | .gt => .ge
  | .eq => .eq

/-- The rows of a clause. An equality that hangs on a selector has one row for each side. -/
def rows (c : LinearClause K) (vocabulary : Vocabulary K) (settings : Settings K)
    (selector : Option String) (label : String) : Except (Error K) (List (Row K)) := do
  let terms ← c.terms.mapM fun (n, a) => return ((← vocabulary.numericVar n).name, a)
  let bound := c.tightRhs settings
  match selector with
  | none => return [⟨terms, sense c.relation, bound, label, none⟩]
  | some s =>
    let below : Row K := ⟨terms, .le, bound, label, some ⟨s, c.relief settings⟩⟩
    let above : Row K := ⟨terms, .ge, bound, label, some ⟨s, -c.relief settings⟩⟩
    return match sense c.relation with
      | .le => [below]
      | .ge => [above]
      | .eq => [below, above]

end LinearClause

namespace MembershipClause

/-- The row of a clause: some indicator is on, or none is. -/
def rows (c : MembershipClause) (vocabulary : Vocabulary K) (selector : Option String)
    (label : String) : Except (Error K) (List (Row K)) := do
  let indicators ← vocabulary.labelVars c.subject
  let terms ← c.labels.mapM fun l => return ((← Vocabulary.labelVar indicators l).name, (1 : K))
  if terms.isEmpty then .error (.encoding {} (.emptyLabels c.toText))
  let count : K := Scalar.ofRat (terms.length : Rat)
  return if c.negated then [⟨terms, .le, 0, label, selector.map (⟨·, count⟩)⟩]
    else [⟨terms, .ge, 1, label, selector.map (⟨·, -1⟩)⟩]

end MembershipClause

/-- The rows of the clause with number `index` of a rule. -/
def Clause.rows (c : Clause K) (rule : String) (index : Nat) (vocabulary : Vocabulary K)
    (settings : Settings K) (selector : Option String) : Except (Error K) (List (Row K)) :=
  let label := rule ++ "[" ++ toString index ++ "]: " ++ c.toText
  match c with
  | linear c => c.rows vocabulary settings selector label
  | membership c => c.rows vocabulary selector label
  | foreign v => .error (.encoding ⟨.text rule, some index⟩ (.clauseType v.kindName))

/-! ### Rules -/

/-- Every categorical variable takes exactly one label. -/
def Vocabulary.exactlyOne (v : Vocabulary K) : List (Row K) :=
  v.indicators.map fun (name, indicators) =>
    ⟨indicators.map fun i => (i.2.name, 1), .eq, 1, name ++ ": exactly one label", none⟩

/-- What a rule adds to a program. -/
structure Encoding (K : Type) where
  vars : List (DecisionVar K) := []
  rows : List (Row K) := []
  selectors : List String := []

namespace Encoding

/-- The rows of the clauses of a term, the first one having number `index`. -/
def termRows (rule : String) (vocabulary : Vocabulary K) (settings : Settings K)
    (selector : Option String) : Nat → Term K → Except (Error K) (List (Row K))
  | _, [] => .ok []
  | index, c :: rest => do
    let rows ← c.rows rule index vocabulary settings selector
    return rows ++ (← termRows rule vocabulary settings selector (index + 1) rest)

/-- The rows of several terms with a selector each; clauses are numbered through. -/
def termsRows (rule : String) (vocabulary : Vocabulary K) (settings : Settings K) :
    Nat → List (String × Term K) → Except (Error K) (List (Row K))
  | _, [] => .ok []
  | index, (selector, term) :: rest => do
    let rows ← termRows rule vocabulary settings (some selector) index term
    return rows ++ (← termsRows rule vocabulary settings (index + term.length) rest)

/-- The names of the selectors of a rule's terms. -/
def selectorNames (tag : String) (count : Nat) : List String :=
  (List.range count).map fun k => "sel[" ++ tag ++ "#" ++ toString k ++ "]"

/-- Encode a rule's normal form; the position tells rules of one name apart. -/
def ofDnf (position : Nat) (rule : String) (dnf : Dnf K) (vocabulary : Vocabulary K)
    (settings : Settings K) : Except (Error K) (Encoding K) :=
  let tag := toString position ++ ":" ++ rule
  if dnf.isEmpty then
    let marker := "false[" ++ tag ++ "]"
    .ok {
      vars := [⟨marker, .binary, 0, 0⟩]
      rows := [⟨[(marker, 1)], .ge, 1, rule ++ ": always false", none⟩] }
  else if dnf.any (·.isEmpty) then .ok {}
  else match dnf with
    | [term] => return { rows := ← termRows rule vocabulary settings none 0 term }
    | terms => do
      let selectors := selectorNames tag terms.length
      let rows ← termsRows rule vocabulary settings 0 (selectors.zip terms)
      return {
        vars := selectors.map fun s => ⟨s, .binary, 0, 1⟩
        rows := rows ++
          [⟨selectors.map fun s => (s, 1), .ge, 1, rule ++ ": at least one term", none⟩]
        selectors }

end Encoding

end RuleAudit
