import RuleAudit.Datum.Sort
import RuleAudit.Rule.Build

/-!
# Linear expressions in rule trees

A side of a comparison is a number, the name of a variable, or a mapping with one operator: `var`,
`+`, `-`, `*` with at most one factor that has variables, or `/` by a constant. Reading gives the
coefficients in order of first appearance, zeros included, and the constant.
-/

namespace RuleAudit.Tree

variable {K : Type} [Scalar K]

/-- A weighted sum of variables plus a constant. -/
structure Affine (K : Type) where
  coefs : List (String × K)
  const : K

namespace Affine

/-- All coefficients and the constant times a factor. -/
def scale (a : Affine K) (factor : K) : Affine K :=
  ⟨a.coefs.map fun (n, c) => (n, c * factor), a.const * factor⟩

/-- The sum of two expressions. -/
def add (a b : Affine K) : Affine K :=
  ⟨b.coefs.foldl (fun l (n, c) => Assoc.put n ((Assoc.get? n l).getD 0 + c) l) a.coefs,
    a.const + b.const⟩

/-- The names of the variables, ascending. -/
def names (a : Affine K) : List String :=
  MembershipClause.sortLabels (a.coefs.map (·.1))

/-- The product of two expressions, if one of them is constant. A product starts from the constant
one; the factor takes its place as long as there are no variables. -/
def times? (a b : Affine K) : Option (Affine K) :=
  if !a.coefs.isEmpty && !b.coefs.isEmpty then none
  else if a.coefs.isEmpty then some (b.scale a.const) else some (a.scale b.const)

end Affine

/-- An error in the definition of a rule. -/
def flaw (rule : Datum K) (f : Flaw K) : Error K :=
  .definition ⟨rule, none⟩ f

/-- A finite number; a truth value is none. -/
def number (rule : Datum K) (d : Datum K) : Except (Error K) K :=
  match d with
  | .int n => match Scalar.ofInt? n with
    | some x => .ok x
    | none => .error (.overflow .integer)
  | .real x => if Scalar.isFinite x then .ok x else .error (flaw rule (.infiniteNumber d))
  | d => .error (flaw rule (.expectedNumber d))

/-- The keys of a mapping that should have one key, for the message. -/
def manyKeys (rule : Datum K) (entries : List (Datum K × Datum K)) : Error K :=
  match Datum.sort (entries.map (·.1)) with
  | .ok keys => flaw rule (.manyKeys keys)
  | .error ⟨left, right⟩ => .mistyped (.incomparable "<" left right)

/-- The operator of a mapping with one key. -/
def operator : Datum K → String
  | .text s => s
  | _ => ""

mutual
/-- Read a linear expression. -/
def linear (rule : Datum K) : Datum K → Except (Error K) (Affine K)
  | .text s =>
    if s = "" then .error (flaw rule .emptyVariable) else .ok ⟨[(s, 1)], 0⟩
  | .mapping entries => linearNode rule entries
  | d => return ⟨[], ← number rule d⟩

/-- Read a mapping with one operator. -/
def linearNode (rule : Datum K) : List (Datum K × Datum K) → Except (Error K) (Affine K)
  | [(.text "var", name)] => match name with
    | .text s =>
      if s = "" then .error (flaw rule (.namedVariable name)) else .ok ⟨[(s, 1)], 0⟩
    | _ => .error (flaw rule (.namedVariable name))
  | [(.text "+", .list args)] => linearSum rule ⟨[], 0⟩ args
  | [(.text "-", .list [a])] => return (← linear rule a).scale (-1)
  | [(.text "-", .list [a, b])] => do
    let left ← linear rule a
    return left.add ((← linear rule b).scale (-1))
  | [(.text "-", .list args)] => .error (flaw rule (.oneOrTwoOperands args.length))
  | [(.text "*", .list args)] => linearProduct rule ⟨[], 1⟩ args
  | [(.text "/", .list [a, c])] => do
    let divisor ← linear rule c
    if !divisor.coefs.isEmpty then
      .error (.encoding ⟨rule, none⟩ (.division divisor.names))
    else if divisor.const == 0 then .error (flaw rule .divisionByZero)
    else return (← linear rule a).scale (1 / divisor.const)
  | [(.text "/", .list args)] => .error (flaw rule (.twoOperands "/" args.length))
  | [(op, value)] =>
    if op.isText "+" || op.isText "-" || op.isText "*" || op.isText "/" then
      .error (flaw rule (.operandList (operator op) value))
    else .error (flaw rule (.unknownArithmetic op))
  | entries => .error (manyKeys rule entries)

/-- Read the summands from left to right. -/
def linearSum (rule : Datum K) : Affine K → List (Datum K) → Except (Error K) (Affine K)
  | out, [] => .ok out
  | out, d :: rest => do linearSum rule (out.add (← linear rule d)) rest

/-- Read the factors from left to right. -/
def linearProduct (rule : Datum K) : Affine K → List (Datum K) → Except (Error K) (Affine K)
  | out, [] => .ok out
  | out, d :: rest => do
    let factor ← linear rule d
    match out.times? factor with
    | some out => linearProduct rule out rest
    | none => .error (.encoding ⟨rule, none⟩ (.product out.names factor.names))
end

end RuleAudit.Tree
