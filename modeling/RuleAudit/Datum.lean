import RuleAudit.Scalar
import RuleAudit.Text.Quoted

/-!
# Plain data

Rule files, settings and requests arrive as plain data: null, truth values, integers, numbers,
texts, lists and mappings whose keys are data too. Integers and numbers are different data even
when they have the same value, and a mapping keeps the order of its entries.
-/

namespace RuleAudit

/-- Plain data over a type of numbers. -/
inductive Datum (K : Type) where
  | null
  | bool (b : Bool)
  | int (n : Int)
  | real (x : K)
  | text (s : String)
  | list (items : List (Datum K))
  | mapping (entries : List (Datum K × Datum K))
deriving Inhabited

namespace Datum

variable {K : Type}

/-- The name of the kind of a datum, as messages give it. -/
def kindName : Datum K → String
  | null => "NoneType"
  | bool _ => "bool"
  | int _ => "int"
  | real _ => "float"
  | text _ => "str"
  | list _ => "list"
  | mapping _ => "dict"

/-- A text as a key of a mapping. -/
def isText (s : String) : Datum K → Bool
  | text t => t == s
  | _ => false

/-- The value of a text key. -/
def field? (key : String) : List (Datum K × Datum K) → Option (Datum K)
  | [] => none
  | (k, v) :: rest => if k.isText key then some v else field? key rest

/-- A mapping with text keys. -/
def record (fields : List (String × Datum K)) : Datum K :=
  mapping (fields.map fun (k, v) => (text k, v))

variable [Scalar K]

/-- Whether a datum counts as true: null, zero, empty texts, lists and mappings do not. -/
def truth : Datum K → Bool
  | null => false
  | bool b => b
  | int n => n != 0
  | real x => !(x == 0)
  | text s => s != ""
  | list items => !items.isEmpty
  | mapping entries => !entries.isEmpty

/-- The exact value of a truth value, an integer or a finite number. -/
def toRat? : Datum K → Option Rat
  | bool b => some (if b then 1 else 0)
  | int n => some n
  | real x => Scalar.toRat? x
  | _ => none

mutual
/-- The datum as messages show it: texts are quoted. -/
def shown : Datum K → String
  | null => "None"
  | bool b => if b then "True" else "False"
  | int n => toString n
  | real x => Scalar.plain x
  | text s => Text.quoted s
  | list items => "[" ++ String.intercalate ", " (shownItems items) ++ "]"
  | mapping entries => "\x7b" ++ String.intercalate ", " (shownEntries entries) ++ "\x7d"

/-- The items of a list, each as messages show it. -/
def shownItems : List (Datum K) → List String
  | [] => []
  | d :: rest => d.shown :: shownItems rest

/-- The entries of a mapping, each as messages show it. -/
def shownEntries : List (Datum K × Datum K) → List String
  | [] => []
  | (k, v) :: rest => (k.shown ++ ": " ++ v.shown) :: shownEntries rest
end

/-- The datum as a label: a text is itself, anything else is as messages show it. -/
def label : Datum K → String
  | text s => s
  | d => d.shown

mutual
/-- Equality of data by value: truth values, integers and numbers are compared as numbers, and
the order of a mapping's entries does not count. -/
def same : Datum K → Datum K → Bool
  | null, d => match d with
    | null => true
    | _ => false
  | text s, d => match d with
    | text t => s == t
    | _ => false
  | list xs, d => match d with
    | list ys => sameItems xs ys
    | _ => false
  | mapping xs, d => match d with
    | mapping ys => xs.length == ys.length && sameEntries xs ys
    | _ => false
  | real x, d => match d with
    | real y => x == y
    | d => sameNumber (real x) d
  | bool b, d => sameNumber (bool b) d
  | int n, d => sameNumber (int n) d
where
  /-- Equality of two numbers of different kinds. -/
  sameNumber (a b : Datum K) : Bool :=
    match a.toRat?, b.toRat? with
    | some p, some q => p == q
    | _, _ => false

/-- Equality of two lists, item by item. -/
def sameItems : List (Datum K) → List (Datum K) → Bool
  | [], ys => ys.isEmpty
  | x :: xs, ys => match ys with
    | y :: ys => x.same y && sameItems xs ys
    | [] => false

/-- Every entry of the first mapping is an entry of the second. -/
def sameEntries : List (Datum K × Datum K) → List (Datum K × Datum K) → Bool
  | [], _ => true
  | (k, v) :: rest, ys => ys.any (fun e => k.same e.1 && v.same e.2) && sameEntries rest ys
end

instance : BEq (Datum K) := ⟨same⟩

mutual
/-- All numbers in a datum are finite. -/
def isBounded : Datum K → Bool
  | real x => Scalar.isFinite x
  | list items => areBounded items
  | mapping entries => entriesBounded entries
  | _ => true

/-- All numbers in some data are finite. -/
def areBounded : List (Datum K) → Bool
  | [] => true
  | d :: rest => d.isBounded && areBounded rest

/-- All numbers in the values of a mapping are finite. -/
def entriesBounded : List (Datum K × Datum K) → Bool
  | [] => true
  | (_, v) :: rest => v.isBounded && entriesBounded rest
end

/-- Lists and mappings cannot be keys of a mapping or be looked up in a collection. -/
def isKey : Datum K → Bool
  | list _ => false
  | mapping _ => false
  | _ => true

/-- The first of two data is less, if they can be compared: texts, and numbers among each other by
their exact values. An undefined number is neither less nor greater than any other. -/
def lt? (a b : Datum K) : Option Bool :=
  match a, b with
  | text s, text t => some (decide (s < t))
  | real x, real y => some (decide (x < y))
  | real x, b => b.toRat?.map fun q => match Scalar.toRat? x with
    | some p => decide (p < q)
    | none => decide (x < 0)
  | a, real y => a.toRat?.map fun p => match Scalar.toRat? y with
    | some q => decide (p < q)
    | none => decide (0 < y)
  | a, b => match a.toRat?, b.toRat? with
    | some p, some q => some (decide (p < q))
    | _, _ => none

instance : LT (Datum K) where
  lt a b := lt? a b = some true

instance : DecidableLT (Datum K) := fun a b =>
  inferInstanceAs (Decidable (lt? a b = some true))

end Datum

/-- A truth value, an integer or a number, kept as it was given. -/
inductive Amount (K : Type) where
  | flag (b : Bool)
  | int (n : Int)
  | real (x : K)

namespace Amount

variable {K : Type}

/-- The datum that was given. -/
def toDatum : Amount K → Datum K
  | flag b => .bool b
  | int n => .int n
  | real x => .real x

/-- The amount in a datum. -/
def ofDatum? : Datum K → Option (Amount K)
  | .bool b => some (flag b)
  | .int n => some (int n)
  | .real x => some (real x)
  | _ => none

variable [Scalar K]

/-- The exact value of a finite amount. -/
def toRat? : Amount K → Option Rat
  | flag b => some (if b then 1 else 0)
  | int n => some n
  | real x => Scalar.toRat? x

/-- The amount is at most `bound`. -/
def atMost (a : Amount K) (bound : Int) : Bool :=
  match a with
  | flag b => decide ((if b then 1 else 0) ≤ bound)
  | int n => decide (n ≤ bound)
  | real x => decide (x ≤ Scalar.ofRat (bound : Rat))

/-- The amount is less than `bound`. -/
def lessThan (a : Amount K) (bound : Int) : Bool :=
  match a with
  | flag b => decide ((if b then 1 else 0) < bound)
  | int n => decide (n < bound)
  | real x => decide (x < Scalar.ofRat (bound : Rat))

end Amount

end RuleAudit
