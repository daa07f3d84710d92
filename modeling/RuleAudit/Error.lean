import RuleAudit.Rule

/-!
# Errors and warnings

An error is a cause: what was wrong with which value. Its wording is in the `message` functions
and nowhere else. Errors about a rule also carry the place: the name of the rule and the number
of the clause, where these are known.

`Reported` is the outcome of an operation that may warn on the way; warnings survive an error.
-/

namespace RuleAudit

/-- Where an error was found; a null rule means that no rule is named. -/
structure Site (K : Type) where
  rule : Datum K := .null
  clause : Option Nat := none

/-- A number of a linear clause. -/
inductive Quantity where
  | coefficient (name : String)
  | rightSide
deriving DecidableEq

/-- How messages call a number of a linear clause. -/
def Quantity.text : Quantity → String
  | coefficient name => "Coefficient of '" ++ name ++ "'"
  | rightSide => "Right hand side"

/-- Which other uses of a variable a kind disagrees with. -/
inductive Clash where
  | earlierRules
  | otherRules
  | sameRule
deriving DecidableEq

/-- What makes a definition malformed. -/
inductive Flaw (K : Type) where
  | relation (symbol : Datum K)
  | truthValue (quantity : Quantity)
  | noNumber (quantity : Quantity) (value : Datum K)
  | infinite (quantity : Quantity) (value : Datum K)
  | variableName (value : Datum K)
  | ruleName (value : Datum K)
  | duplicateRule
  | kindClash (clash : Clash) (name : String) (now earlier : VarKind)
  | clauseType (kind : String)
  | nodeType (kind : String)
  | noValue (name : String)
  | expectedNumber (value : Datum K)
  | infiniteNumber (value : Datum K)
  | operandList (op : String) (value : Datum K)
  | emptyVariable
  | namedVariable (value : Datum K)
  | manyKeys (keys : List (Datum K))
  | oneOrTwoOperands (count : Nat)
  | twoOperands (op : String) (count : Nat)
  | divisionByZero
  | unknownArithmetic (op : Datum K)
  | unknownOperator (op : Datum K)
  | expectedVariable (value : Datum K)
  | expectedBoolean (value : Datum K)
  | membershipShape (op : String)
  | unboundable (name : String) (value : Datum K)
  | bindingNull (name : String)
  | inRequest (message : String)

/-- What keeps a rule from being linear. -/
inductive Obstacle where
  | product (left right : List String)
  | division (vars : List String)
  | clauseType (kind : String)
  | emptyLabels (clause : String)
deriving DecidableEq

/-- Why a solver gave no verdict. -/
inductive SolverFault where
  | unavailable (backend : String)
  | noVerdict (context detail : String)
deriving DecidableEq

/-- A value of a kind that an operation does not take. -/
inductive Mismatch (K : Type) where
  | notReal (kind : String)
  | incomparable (sign left right : String)
  | unexpectedSetting (name : String)
  | takenSetting (name : String)
  | settingKind (name kind : String)
  | notRule (value : Datum K)
  | notNumeral (kind : String)
  | notKey (kind : String)
  | notIterable (kind : String)
  | notPair (index : Nat)
  | notInteger (kind : String)
  | backendName
  | solverTolerance

/-- A value that is out of its range or of the wrong shape. -/
inductive Invalid where
  | epsilon
  | bigM
  | override (name : String)
  | notPositive (setting : String)
  | belowOne (setting : String)
  | settingsFile
  | ruleFile
  | ruleList
  | itemShape (index : Nat)
  | itemName (index : Nat)
  | numeral (text : String)
  | pairLength (index length : Nat)
  | noLabels
  | undefinedLimit
  | unboundedBody
deriving DecidableEq

/-- A name that was looked up in vain. -/
inductive Missing where
  | entry (key : String)
  | rule (name : String) (known : List String)
  | replaced (name : String)
deriving DecidableEq

/-- A number that does not fit. -/
inductive Overflow where
  | integer
  | infiniteLimit
  | hugeLimit
deriving DecidableEq

/-- What went wrong. -/
inductive Error (K : Type) [Scalar K] where
  | definition (site : Site K) (flaw : Flaw K)
  | encoding (site : Site K) (obstacle : Obstacle)
  | solver (fault : SolverFault)
  | notConverged (rounds : Nat) (last : RuleSet K)
  | mistyped (mismatch : Mismatch K)
  | invalid (value : Invalid)
  | missing (name : Missing)
  | overflow (number : Overflow)
  | lacks (kind property : String)
  | malformed

/-! ### Wording -/

variable {K : Type} [Scalar K]

/-- Names in brackets, each in quotes. -/
def shownNames (names : List String) : String :=
  (Datum.list (names.map fun n => (Datum.text n : Datum K))).shown

/-- The place in front of a message. -/
def Site.wrap (site : Site K) (message : String) : String :=
  let rule := match site.rule with
    | .null => []
    | r => ["rule '" ++ r.label ++ "'"]
  let clause := match site.clause with
    | none => []
    | some i => ["clause " ++ toString i]
  match rule ++ clause with
  | [] => message
  | parts => String.intercalate ", " parts ++ ": " ++ message

/-- The wording of a flaw. -/
def Flaw.message : Flaw K → String
  | relation s =>
    "Unknown relation '" ++ s.label ++ "'. Known: " ++
      String.intercalate ", " (Relation.all.map Relation.symbol)
  | truthValue q => q.text ++ " must be a number, got a bool"
  | noNumber q v => q.text ++ " must be a number, got " ++ v.shown
  | infinite q v => q.text ++ " must be finite, got " ++ v.shown
  | variableName v => "Variable names must be non-empty strings, got " ++ v.shown
  | ruleName v => "Rule name must be a non-empty string, got " ++ v.shown
  | duplicateRule => "Duplicate rule name"
  | kindClash clash name now earlier =>
    match clash with
    | .earlierRules =>
      "Variable '" ++ name ++ "' used as " ++ now.name ++ " but earlier rules use it as " ++
        earlier.name
    | .otherRules =>
      "Variable '" ++ name ++ "' used as " ++ now.name ++ " but other rules use it as " ++
        earlier.name
    | .sameRule =>
      "Variable '" ++ name ++ "' is used both as " ++ earlier.name ++ " and " ++ now.name
  | clauseType kind => "Unsupported clause type " ++ kind
  | nodeType kind => "Unsupported expression node " ++ kind
  | noValue name => "No value for variable " ++ Text.quoted name
  | expectedNumber v => "Expected a number, got " ++ v.shown
  | infiniteNumber v => "Numbers must be finite, got " ++ v.shown
  | operandList op v => "'" ++ op ++ "' expects a list of operands, got " ++ v.shown
  | emptyVariable => "Variable names must be non-empty"
  | namedVariable v => "'var' expects a variable name, got " ++ v.shown
  | manyKeys keys => "Expected a single-key mapping, got keys " ++ (Datum.list keys).shown
  | oneOrTwoOperands n => "'-' expects one or two operands, got " ++ toString n
  | twoOperands op n => "'" ++ op ++ "' expects two operands, got " ++ toString n
  | divisionByZero => "Division by zero"
  | unknownArithmetic op => "Unknown arithmetic operator '" ++ op.label ++ "'"
  | unknownOperator op => "Unknown operator '" ++ op.label ++ "'"
  | expectedVariable v => "Expected a variable name, got " ++ v.shown
  | expectedBoolean v => "Expected a boolean expression, got " ++ v.shown
  | membershipShape op => "'" ++ op ++ "' expects [variable, [labels]]"
  | unboundable name v => "Variable '" ++ name ++ "' is numeric; cannot bind it to " ++ v.shown
  | bindingNull name => "Variable '" ++ name ++ "' is categorical; cannot bind it to None"
  | inRequest m => m

/-- The wording of an obstacle. -/
def Obstacle.message : Obstacle → String
  | product l r =>
    "Product of variables " ++ shownNames (K := Rat) l ++ " and " ++ shownNames (K := Rat) r ++
      " is not linear"
  | division xs => "Division by variables " ++ shownNames (K := Rat) xs ++ " is not linear"
  | clauseType kind => "Clause type " ++ kind ++ " has no linear encoding"
  | emptyLabels clause => "Empty label set in '" ++ clause ++ "' must be reduced before encoding"

/-- The wording of a solver's fault. -/
def SolverFault.message : SolverFault → String
  | unavailable backend =>
    "Solver backend '" ++ backend ++ "' is not available in this OR-tools build"
  | noVerdict context detail =>
    "Solver returned no verdict" ++ (if context = "" then "" else " while " ++ context) ++
      " (backend status " ++ detail ++ ")"

/-- The status that a solver's fault is reported under. -/
def SolverFault.status : SolverFault → String
  | unavailable _ => "UNAVAILABLE"
  | noVerdict _ detail => if detail = "" then "SOLVER_ERROR" else detail

/-- The wording of a mismatch. -/
def Mismatch.message : Mismatch K → String
  | notReal kind => "must be real number, not " ++ kind
  | incomparable sign l r =>
    "'" ++ sign ++ "' not supported between instances of '" ++ l ++ "' and '" ++ r ++ "'"
  | unexpectedSetting name =>
    "Settings.__init__() got an unexpected keyword argument '" ++ name ++ "'"
  | takenSetting name =>
    "Settings.__init__() got multiple values for argument '" ++ name ++ "'"
  | settingKind name kind =>
    "Solver setting '" ++ name ++ "' has the wrong type: got " ++ kind ++ "."
  | notRule v => "RuleSet members must be Rule objects, got " ++ v.shown
  | notNumeral kind =>
    "float() argument must be a string or a real number, not '" ++ kind ++ "'"
  | notKey kind => "unhashable type: '" ++ kind ++ "'"
  | notIterable kind => "'" ++ kind ++ "' object is not iterable"
  | notPair i => "cannot convert dictionary update sequence element #" ++ toString i ++
      " to a sequence"
  | notInteger kind => "'" ++ kind ++ "' object cannot be interpreted as an integer"
  | backendName => "in method 'Solver_CreateSolver', argument 1 of type 'std::string const &'"
  | solverTolerance =>
    "in method 'MPSolverParameters_SetDoubleParam', argument 3 of type 'double'"

/-- The wording of an invalid value. -/
def Invalid.message : Invalid → String
  | epsilon => "'epsilon' must be a positive finite number"
  | bigM => "'big_m' must be finite and larger than 'epsilon'"
  | override name => "big_m override for '" ++ name ++ "' must be a positive finite number"
  | notPositive setting => "'" ++ setting ++ "' must be positive when given"
  | belowOne setting => "'" ++ setting ++ "' must be at least 1"
  | settingsFile => "Settings file must contain a top-level 'solver' mapping."
  | ruleFile => "Rule file must contain a top-level 'rules' list."
  | ruleList => "'rules' must be a list of mappings with keys 'name' and 'expr'."
  | itemShape i => "rules[" ++ toString i ++ "] must be a mapping with the keys 'name' and 'expr'."
  | itemName i => "rules[" ++ toString i ++ "].name must be a non-empty string."
  | numeral text => "could not convert string to float: " ++ Text.quoted text
  | pairLength i n =>
    "dictionary update sequence element #" ++ toString i ++ " has length " ++ toString n ++
      "; 2 is required"
  | noLabels => "max() arg is an empty sequence"
  | undefinedLimit => "cannot convert float NaN to integer"
  | unboundedBody => "Out of range float values are not JSON compliant"

/-- The wording of a missing name. -/
def Missing.message : Missing → String
  | entry key => key
  | rule name known => "Unknown rule '" ++ name ++ "'. Known: " ++ String.intercalate ", " known
  | replaced name => "Unknown rule '" ++ name ++ "'"

/-- The wording of a number that does not fit. -/
def Overflow.message : Overflow → String
  | integer => "int too large to convert to float"
  | infiniteLimit => "cannot convert float infinity to integer"
  | hugeLimit => "in method 'Solver_SetTimeLimit', argument 2 of type 'int64_t'"

/-- The wording of an error, with its place in front. -/
def Error.message : Error K → String
  | definition site flaw => site.wrap flaw.message
  | encoding site obstacle => site.wrap obstacle.message
  | solver fault => fault.message
  | notConverged rounds _ =>
    "Simplification did not converge within " ++ toString rounds ++ " rounds"
  | mistyped m => m.message
  | invalid v => v.message
  | missing m => m.message
  | overflow o => o.message
  | lacks kind property => "'" ++ kind ++ "' object has no attribute '" ++ property ++ "'"
  | malformed => "The text is not well-formed"

/-! ### Warnings -/

/-- What an operation does not do for an infeasible set. -/
inductive Skipped where
  | fixedVariables
  | redundancyRemoval
  | conditionalSimplification
  | simplification
deriving DecidableEq

/-- The end of the warning. -/
def Skipped.text : Skipped → String
  | fixedVariables => "no fixed variables reported"
  | redundancyRemoval => "redundancy removal skipped"
  | conditionalSimplification => "conditional simplification skipped"
  | simplification => "simplification skipped"

/-- Something that did not stop an operation. -/
inductive Warning (K : Type) [Scalar K] where
  | skippedRule (error : Error K)
  | unknownSetting (key : Datum K)
  | infeasibleSet (skipped : Skipped)
  | infeasibleRule (name : String)

/-- The wording of a warning. -/
def Warning.message : Warning K → String
  | skippedRule e => "Skipping " ++ e.message
  | unknownSetting key => "Ignoring unknown solver setting: '" ++ key.label ++ "'"
  | infeasibleSet skipped => "Rule set is infeasible; " ++ skipped.text
  | infeasibleRule name =>
    "Rule '" ++ name ++ "' is infeasible on its own; nothing can contradict it"

/-! ### Outcomes with warnings -/

/-- A result or an error, and the warnings issued before it. -/
structure Reported (K : Type) [Scalar K] (α : Type) where
  outcome : Except (Error K) α
  warnings : List (Warning K) := []

namespace Reported

/-- An operation that warns and does nothing else. -/
def warn (w : Warning K) : Reported K Unit :=
  ⟨.ok (), [w]⟩

/-- An outcome without warnings. -/
def lift {α : Type} (outcome : Except (Error K) α) : Reported K α :=
  ⟨outcome, []⟩

/-- Run one operation after the other; the first error ends the run, and its warnings stay. -/
def andThen {α β : Type} (x : Reported K α) (f : α → Reported K β) : Reported K β :=
  match x.outcome with
  | .ok a => let y := f a; ⟨y.outcome, x.warnings ++ y.warnings⟩
  | .error e => ⟨.error e, x.warnings⟩

instance : Monad (Reported K) where
  pure a := ⟨.ok a, []⟩
  bind := andThen

instance : MonadLift (Except (Error K)) (Reported K) where
  monadLift := lift

instance : MonadExceptOf (Error K) (Reported K) where
  throw e := ⟨.error e, []⟩
  tryCatch x handle := match x.outcome with
    | .ok _ => x
    | .error e => let y := handle e; ⟨y.outcome, x.warnings ++ y.warnings⟩

end Reported

end RuleAudit
