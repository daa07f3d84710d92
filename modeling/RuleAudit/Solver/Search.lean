import RuleAudit.Solver.Elimination

/-!
# Search over binary variables

A problem has variables in intervals, some of them binary, and constraints on weighted sums, some
of which hang on a binary variable and count only when it is one. The search fixes what the
constraints force, decides the inequalities between the other variables by elimination, and tries
one and zero for a binary variable of a constraint that is still open. It ends when every
constraint holds whatever the undecided binary variables are; these are then zero, which turns the
constraints that hang on them off.
-/

namespace RuleAudit.Search

open Elimination

/-- `sum (coefficient * variable) ≤ bound`, if the switch is on. -/
structure Constraint where
  terms : List (Nat × Rat)
  bound : Rat
  switch : Option Nat := none

/-- Variables by number, and constraints on them. -/
structure Problem where
  binary : Array Bool
  constraints : List Constraint
  objective : List (Nat × Rat)

/-- The intervals of the variables. -/
abbrev Box := Array Interval

/-- The interval of a variable. -/
def Box.at (box : Box) (i : Nat) : Interval :=
  box.getD i .all

variable (problem : Problem)

/-- The variable is binary and not decided. -/
def isOpen (box : Box) (i : Nat) : Bool :=
  problem.binary.getD i false && (box.at i).value?.isNone

/-- The least value of a sum in a box, if it is bounded there. -/
def infimum? (box : Box) : List (Nat × Rat) → Option Rat
  | [] => some 0
  | (i, a) :: rest => do
    let x ← (box.at i).least a
    return a * x + (← infimum? box rest)

/-- The greatest value of a sum in a box, if it is bounded there. -/
def supremum? (box : Box) : List (Nat × Rat) → Option Rat
  | [] => some 0
  | (i, a) :: rest => do
    let x ← (box.at i).greatest a
    return a * x + (← supremum? box rest)

namespace Constraint

/-- Whether a constraint counts: its switch is on, or it has none. -/
inductive State where
  | on
  | off
  | open (switch : Nat)

/-- The state of a constraint in a box. -/
def state (c : Constraint) (box : Box) : State :=
  match c.switch with
  | none => .on
  | some s => match (box.at s).value? with
    | some x => if x = 0 then .off else .on
    | none => .open s

/-- No point of the box satisfies the constraint. -/
def fails (c : Constraint) (box : Box) : Bool :=
  match infimum? box c.terms with
  | some m => decide (c.bound < m)
  | none => false

/-- Every point of the box satisfies the constraint. -/
def isCertain (c : Constraint) (box : Box) : Bool :=
  match supremum? box c.terms with
  | some m => decide (m ≤ c.bound)
  | none => false

end Constraint

/-! ### Forced values -/

/-- A box, and whether it has changed. -/
abbrev Change := Box × Bool

/-- Fix a binary variable of a constraint if one of its values makes the constraint fail. -/
def forceVar (c : Constraint) (change : Change) (i : Nat) : Change :=
  let (box, changed) := change
  if isOpen problem box i then
    if c.fails (box.set! i (.single 1)) then (box.set! i (.single 0), true)
    else if c.fails (box.set! i (.single 0)) then (box.set! i (.single 1), true)
    else (box, changed)
  else (box, changed)

/-- The only term with a variable that is not fixed, and the sum of the other terms. -/
def lastTerm? (box : Box) : List (Nat × Rat) → Option ((Nat × Rat) × Rat)
  | [] => none
  | (i, a) :: rest => match (box.at i).value? with
    | some x => (lastTerm? box rest).map fun (t, sum) => (t, sum + a * x)
    | none => (rest.foldlM (fun sum (j, b) => (box.at j).value?.map fun x => sum + b * x) 0).map
        fun sum => ((i, a), sum)

/-- Sharpen the interval of a continuous variable that a constraint on it alone bounds. -/
def forceLast (c : Constraint) (change : Change) : Change :=
  let (box, changed) := change
  match lastTerm? box c.terms with
  | some ((i, a), sum) =>
    if problem.binary.getD i false || a = 0 then (box, changed)
    else
      let interval := box.at i
      let b := (c.bound - sum) / a
      let sharper := if a < 0 then interval.atLeast b else interval.atMost b
      if sharper.lower = interval.lower ∧ sharper.upper = interval.upper then (box, changed)
      else (box.set! i sharper, true)
  | none => (box, changed)

/-- Apply one constraint to a box; nothing when no point of the box is left. -/
def force (change : Change) (c : Constraint) : Option Change :=
  match c.state change.1 with
  | .off => some change
  | .open s => if c.fails change.1 then some (change.1.set! s (.single 0), true) else some change
  | .on =>
    if c.fails change.1 then none
    else some (forceLast problem c (c.terms.foldl (fun ch t => forceVar problem c ch t.1) change))

/-- Apply all constraints until nothing changes, at most `n` times. -/
def propagate : Nat → Box → Option Box
  | 0, box => some box
  | n + 1, box => do
    let (box, changed) ← problem.constraints.foldlM (force problem) (box, false)
    if changed then propagate n box else return box

/-! ### Continuous variables -/

/-- The constraints that count and have no undecided binary variable. -/
def settled (box : Box) : List Constraint :=
  problem.constraints.filter fun c =>
    (match c.state box with | .on => true | _ => false) &&
      c.terms.all fun t => !isOpen problem box t.1

/-- The variables that are not fixed among those of some sums. -/
def unfixed (box : Box) (sums : List (List (Nat × Rat))) : List Nat :=
  (sums.flatten.map (·.1)).eraseDups.filter fun i => (box.at i).value?.isNone

/-- The sum of the terms with a fixed variable. -/
def fixedPart (box : Box) (terms : List (Nat × Rat)) : Rat :=
  terms.foldl (fun sum (i, a) => match (box.at i).value? with
    | some x => sum + a * x
    | none => sum) 0

/-- The coefficients of some variables in a sum. -/
def coefsOf (vars : List Nat) (terms : List (Nat × Rat)) : List Rat :=
  vars.map fun i => terms.foldl (fun sum (j, a) => if i = j then sum + a else sum) 0

/-- A constraint as an inequality between the variables that are not fixed. -/
def inequality (box : Box) (vars : List Nat) (c : Constraint) : Inequality :=
  ⟨coefsOf vars c.terms, c.bound - fixedPart box c.terms⟩

/-- A point of a problem: a value for every variable. -/
abbrev Point := Array Rat

/-- The point with given values, and with any value of its interval for every other variable. -/
def complete (box : Box) (vars : List Nat) (values : List Rat) : Point :=
  (vars.zip values).foldl (fun p (i, x) => p.set! i x) (box.map (·.sample))

/-- What is known of a box. -/
inductive Finding where
  | empty
  | unbounded
  | found (point : Point) (value : Rat)

/-- The better of two findings; `later` is only asked for when it can be better. -/
def Finding.orElse (first : Finding) (goalless : Bool) (later : Unit → Finding) : Finding :=
  match first with
  | empty => later ()
  | unbounded => unbounded
  | found p v =>
    if goalless then found p v
    else match later () with
      | empty => found p v
      | unbounded => unbounded
      | found q w => if w < v then found q w else found p v

/-- Decide the settled constraints. -/
def decideSettled (box : Box) (objective : List (Nat × Rat)) : Finding :=
  let constraints := settled problem box
  let vars := unfixed box (objective :: constraints.map (·.terms))
  let rows := constraints.map (inequality box vars)
  let intervals := vars.map box.at
  if objective.isEmpty then
    match Elimination.point? intervals rows with
    | some x => .found (complete box vars x) 0
    | none => .empty
  else match Elimination.minimum intervals rows (coefsOf vars objective) with
    | .empty => .empty
    | .unbounded => .unbounded
    | .attained x v => .found (complete box vars x) (v + fixedPart box objective)

/-! ### The search -/

/-- The undecided binary variables of a constraint that counts and is not certain. -/
def openVars (box : Box) (c : Constraint) : List Nat :=
  match c.state box with
  | .on =>
    match (c.terms.map (·.1)).filter (isOpen problem box) with
    | [] => []
    | vars => if c.isCertain box then [] else vars
  | _ => []

/-- A binary variable to decide next: one of a constraint with as few undecided ones as possible;
if no constraint is open, one of the objective. -/
def nextVar? (box : Box) : Option Nat :=
  let candidates := (problem.constraints.map (openVars problem box)).filter (!·.isEmpty)
  match candidates with
  | first :: rest =>
    (rest.foldl (fun best vars => if vars.length < best.length then vars else best) first).head?
  | [] => (problem.objective.map (·.1)).find? (isOpen problem box)

/-- All undecided binary variables are zero. -/
def closeAll (box : Box) : Box :=
  box.mapIdx fun i interval => if isOpen problem box i then .single 0 else interval

/-- Search a box in which at most `n` binary variables are undecided. -/
def search : Nat → Box → Finding
  | 0, box => decideSettled problem (closeAll problem box) problem.objective
  | n + 1, box =>
    match propagate problem (problem.constraints.length + n + 1) box with
    | none => .empty
    | some box =>
      match nextVar? problem box with
      | none => decideSettled problem (closeAll problem box) problem.objective
      | some i => match decideSettled problem box [] with
        | .empty => .empty
        | _ => (search n (box.set! i (.single 1))).orElse problem.objective.isEmpty fun _ =>
            search n (box.set! i (.single 0))

/-- Solve a problem in a box. -/
def solve (box : Box) : Finding :=
  if box.any (·.isEmpty) then .empty
  else search problem (problem.binary.toList.countP (·) + 1) box

end RuleAudit.Search
