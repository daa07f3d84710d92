import RuleAudit.Assoc
import RuleAudit.Clause.Build
import RuleAudit.Datum.Sort

/-!
# Settings

The tolerances and limits of the encoder, the solver and the queries. `epsilon` is the margin that
turns a strict relation into one with its boundary; `bigM`, or an override of it for one variable,
bounds the magnitude of a numeric variable. Every amount is kept as it was given, so an integer
stays an integer in reports.

`Settings.make` takes any data and checks what the settings mean; `Settings.ofMapping` also checks
the kind of every value first, and passes over the keys it does not know with a warning.
-/

namespace RuleAudit

/-! ### Sizes -/

/-- A positive finite amount. -/
structure Size (K : Type) [Scalar K] where
  given : Amount K
  exact : Rat
  toRat?_given : given.toRat? = some exact
  pos : 0 < exact

namespace Size

variable {K : Type} [Scalar K]

/-- The size as a number. -/
def value (s : Size K) : K :=
  Scalar.ofRat s.exact

/-- Check that an amount is positive and finite. -/
def ofAmount (refusal : Invalid) (a : Amount K) : Except (Error K) (Size K) :=
  match h : a.toRat? with
  | none => .error (.invalid refusal)
  | some q =>
    if Scalar.isFinite (Scalar.ofRat q : K) then
      if hq : 0 < q then .ok ⟨a, q, h, hq⟩ else .error (.invalid refusal)
    else .error (.overflow .integer)

/-- Read a size; only numbers can be tested for being finite. -/
def read (refusal : Invalid) (d : Datum K) : Except (Error K) (Size K) :=
  match Amount.ofDatum? d with
  | some a => ofAmount refusal a
  | none => .error (.mistyped (.notReal d.kindName))

end Size

/-! ### The settings -/

/-- Tolerances and limits. -/
structure Settings (K : Type) [Scalar K] where
  epsilon : Size K
  bigM : Size K
  overrides : List (Datum K × Size K)
  backend : Datum K
  timeLimit : Option (Amount K)
  tolerance : Option (Amount K)
  maxWorkers : Amount K
  reentrant : Datum K
  maxRemovals : Amount K
  /-- The box is wider than the margin. -/
  epsilon_lt : epsilon.exact < bigM.exact

namespace Settings

variable {K : Type} [Scalar K]

/-- The bound on the magnitude of a variable, as it was given. -/
def sizeOf (s : Settings K) (name : String) : Size K :=
  (Assoc.get? (Datum.text name) s.overrides).getD s.bigM

/-- The bound on the magnitude of a variable. -/
def bound (s : Settings K) (name : String) : K :=
  (s.sizeOf name).value

/-- The largest number of rules that are removed together, out of `count`. Numbers of rules are
integers, so a real limit only passes when it is above `count`. -/
def removals (s : Settings K) (count : Nat) : Except (Error K) Nat :=
  match s.maxRemovals with
  | .int n => .ok (min n.toNat count)
  | .flag b => .ok (min b.toNat count)
  | .real x =>
    if Scalar.ofRat (count : Rat) < x then .ok count
    else .error (.mistyped (.notInteger (Datum.real x).kindName))

/-! ### Checks -/

/-- The entries of a list of pairs. A pair is a list of two items, a text of two characters or a
mapping with two keys. -/
def pairsFrom (index : Nat) : List (Datum K) → Except (Error K) (List (Datum K × Datum K))
  | [] => .ok []
  | d :: rest => match d.iterate (K := K) with
    | .ok [key, value] =>
      if key.isKey then return (key, value) :: (← pairsFrom (index + 1) rest)
      else .error (.mistyped (.notKey key.kindName))
    | .ok items => .error (.invalid (.pairLength index items.length))
    | .error _ => .error (.mistyped (.notPair index))

/-- The overrides in a datum; data that count as false hold none. -/
def readOverrides (d : Datum K) : Except (Error K) (List (Datum K × Datum K)) :=
  if !d.truth then .ok []
  else match d with
    | .mapping entries => .ok entries
    | d => do return Assoc.ofPairs (← pairsFrom 0 (← d.iterate))

/-- Check one override. -/
def readOverride (entry : Datum K × Datum K) : Except (Error K) (Datum K × Size K) :=
  let refusal := Invalid.override entry.1.label
  match Amount.ofDatum? entry.2 with
  | some a => return (entry.1, ← Size.ofAmount refusal a)
  | none => .error (.invalid refusal)

/-- An amount that must be positive when it is given. -/
def readLimit (name : String) (d : Datum K) : Except (Error K) (Option (Amount K)) :=
  match d with
  | .null => .ok none
  | d => match Amount.ofDatum? d with
    | some a => if a.atMost 0 then .error (.invalid (.notPositive name)) else .ok (some a)
    | none => .error (.mistyped (.incomparable "<=" d.kindName "int"))

/-- An amount that must be at least one. -/
def readCount (name : String) (d : Datum K) : Except (Error K) (Amount K) :=
  match Amount.ofDatum? d with
  | some a => if a.lessThan 1 then .error (.invalid (.belowOne name)) else .ok a
  | none => .error (.mistyped (.incomparable "<" d.kindName "int"))

/-- The kinds of data that a setting takes. -/
inductive Shape where
  | number
  | optionalNumber
  | integer
  | mapping
  | text
  | truthValue
deriving DecidableEq

/-- A datum has a shape. A truth value is no number here. -/
def Shape.accepts : Shape → Datum K → Bool
  | number, .int _ => true
  | number, .real _ => true
  | optionalNumber, .null => true
  | optionalNumber, .int _ => true
  | optionalNumber, .real _ => true
  | integer, .int _ => true
  | mapping, .mapping _ => true
  | text, .text _ => true
  | truthValue, .bool _ => true
  | _, _ => false

/-- The settings by name, with their shapes. -/
def shapes : List (String × Shape) :=
  [("epsilon", .number), ("big_m", .number), ("big_m_overrides", .mapping), ("backend", .text),
    ("time_limit", .optionalNumber), ("feasibility_tolerance", .optionalNumber),
    ("max_workers", .integer), ("reentrant", .truthValue), ("max_removals", .integer)]

/-- The key names a setting. -/
def isKnown (key : Datum K) : Bool :=
  shapes.any fun s => key.isText s.1

/-! ### Making settings -/

/-- Settings from the values that are given; the others have their defaults. -/
def make (entries : List (Datum K × Datum K)) : Except (Error K) (Settings K) := do
  if let some (key, _) := entries.find? fun e => !isKnown e.1 then
    .error (.mistyped (if key.isText "self" then .takenSetting "self"
      else .unexpectedSetting key.label))
  let value (name : String) (default : Datum K) := (Datum.field? name entries).getD default
  let epsilon ← Size.read .epsilon (value "epsilon" (.real (Scalar.ofRat (1 / 1000))))
  let bigM ← Size.read .bigM (value "big_m" (.real (Scalar.ofRat 1000000)))
  if epsilon_lt : epsilon.exact < bigM.exact then
    let overrides ← (← readOverrides (value "big_m_overrides" (.mapping []))).mapM readOverride
    let timeLimit ← readLimit "time_limit" (value "time_limit" .null)
    let tolerance ← readLimit "feasibility_tolerance"
      (value "feasibility_tolerance" (.real (Scalar.ofRat (1 / 1000000000))))
    let maxWorkers ← readCount "max_workers" (value "max_workers" (.int 1))
    let maxRemovals ← readCount "max_removals" (value "max_removals" (.int 2))
    return {
      epsilon, bigM, overrides, timeLimit, tolerance, maxWorkers, maxRemovals, epsilon_lt
      backend := value "backend" (.text "SCIP")
      reentrant := value "reentrant" (.bool false) }
  else .error (.invalid .bigM)

/-- Check the shape of every setting that is given. -/
def checkShapes (entries : List (Datum K × Datum K)) : Except (Error K) Unit :=
  shapes.forM fun (name, shape) => match Datum.field? name entries with
    | some d =>
      if shape.accepts d then .ok () else .error (.mistyped (.settingKind name d.kindName))
    | none => .ok ()

/-- Settings from a mapping. -/
def ofMapping (entries : List (Datum K × Datum K)) : Reported K (Settings K) := do
  let unknown ← Reported.lift (match Datum.sort ((entries.map (·.1)).filter (!isKnown ·)) with
    | .ok keys => .ok keys
    | .error ⟨left, right⟩ => .error (.mistyped (.incomparable "<" left right)))
  for key in unknown do
    Reported.warn (.unknownSetting key)
  Reported.lift do
    checkShapes entries
    make (entries.filter fun e => isKnown e.1)

/-- The settings when nothing is given. -/
def default : Except (Error K) (Settings K) :=
  make []

end Settings

end RuleAudit
