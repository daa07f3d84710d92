import RuleAudit.Solver
import RuleAudit.Solver.Search

/-!
# The standard solver

A backend is looked up in a library by the name in the settings and is handed their limits, if it
can hold them (`guarded`). This is the same for every library.

The standard backend reads the numbers of a program as exact rationals and searches for a point. A
row is satisfied when it holds up to a slack; whether there is a point is decided with `slack`. The
point itself is taken with as little slack as it needs, so that values which the rows determine come
out exactly, or within the rounding of the rows' own numbers.
-/

namespace RuleAudit.Standard

open Elimination Search

variable {K : Type} [Scalar K]

/-! ### Reading a program -/

/-- Only zero and one are left of an interval. -/
def binaryPart (i : Interval) : Interval :=
  match [(0 : Rat), 1].filter fun x => !((i.atMost x).atLeast x).isEmpty with
  | [] => .empty
  | [x] => .single x
  | _ => ⟨some 0, some 1⟩

/-- The interval of a decision variable; an infinite end is none. -/
def intervalOf (v : DecisionVar K) : Interval :=
  let i : Interval := ⟨Scalar.toRat? v.lower, Scalar.toRat? v.upper⟩
  match v.domain with
  | .continuous => i
  | .binary => binaryPart i

/-- The number of a name. -/
def numberOf (names : List String) (name : String) : Except (Error K) Nat :=
  match names.findIdx? (· == name) with
  | some i => .ok i
  | none => .error (.missing (.entry name))

/-- Coefficients added up by variable, from left to right. -/
def addUp (coefs : List (Nat × K)) : List (Nat × K) :=
  coefs.foldl (fun l (i, a) => match Assoc.get? i l with
    | some b => Assoc.put i (b + a) l
    | none => l ++ [(i, a)]) []

/-- A sum over numbered variables. -/
def sumOf (names : List String) (coefs : List (String × K)) :
    Except (Error K) (List (Nat × Rat)) := do
  let numbered ← coefs.mapM fun (n, a) => return (← numberOf names n, a)
  return ((addUp numbered).map fun (i, a) => (i, (Scalar.toRat? a).getD 0)).filter (·.2 ≠ 0)

/-- The constraints of a sum that is compared with a right side. An infinite right side is either no
bound or one that cannot be met. -/
def compare (sense : Sense) (terms : List (Nat × Rat)) (bound : K) (switch : Option Nat)
    (slack : Rat) : List Constraint :=
  match Scalar.toRat? bound with
  | some b =>
    let below : Constraint := ⟨terms, b + slack, switch⟩
    let above : Constraint := ⟨terms.map fun (i, a) => (i, -a), slack - b, switch⟩
    match sense with
    | .le => [below]
    | .ge => [above]
    | .eq => [below, above]
  | none =>
    let impossible : Constraint := ⟨[], -1, switch⟩
    match sense with
    | .le => if bound < 0 then [impossible] else []
    | .ge => if 0 < bound then [impossible] else []
    | .eq => [impossible]

/-- The constraints of a row. A row that hangs on a binary variable of its own is the bare row when
the variable is one and nothing when it is zero; any other switch is one more summand. -/
def constraintsOf (names : List String) (isBinary : String → Bool) (slack : Rat) (r : Row K) :
    Except (Error K) (List Constraint) := do
  let flat ← sumOf names r.coefs
  match r.switch with
  | none => return compare r.sense flat r.rhs none slack
  | some s =>
    if isBinary s.selector && !r.terms.any (·.1 == s.selector) then
      let number ← numberOf names s.selector
      return compare r.sense (← sumOf names r.terms) r.bound (some number) slack
    else return compare r.sense flat r.rhs none slack

/-- A program over numbered variables. -/
structure Model where
  names : List String
  box : Box
  problem : Problem

/-- Read a program. Every name in a row or in the objective must be a variable's; of several
variables of one name the last one counts. -/
def Model.read (p : Program K) (slack : Rat) : Except (Error K) Model := do
  let kept := Assoc.ofPairs (p.vars.map fun v => (v.name, v))
  let names := kept.map (·.1)
  let isBinary (name : String) : Bool :=
    (Assoc.get? name kept).any fun v => v.domain = .binary
  let constraints ← p.rows.mapM (constraintsOf names isBinary slack)
  let objective ← sumOf names (Assoc.ofPairs p.objective)
  return {
    names
    box := (kept.map fun (_, v) => intervalOf v).toArray
    problem := {
      binary := (kept.map fun (_, v) => decide (v.domain = .binary)).toArray
      constraints := constraints.flatten
      objective } }

/-! ### Solving -/

/-- The slack within which rows are satisfied. -/
def slack : Rat :=
  mkRat 1 (Nat.pow 10 9)

/-- The slacks that a point is looked for with when none satisfies the rows exactly. -/
def slacks : List Rat :=
  [mkRat 1 (Nat.pow 10 14), mkRat 1 (Nat.pow 10 12), mkRat 1 (Nat.pow 10 10), slack]

/-- What is found with a slack. -/
def attempt (p : Program K) (slack : Rat) : Except (Error K) (Solution K) := do
  let model ← Model.read p slack
  return match Search.solve model.problem model.box with
    | .found x _ => ⟨.feasible, model.names.zip (x.toList.map Scalar.ofRat), "OPTIMAL"⟩
    | .unbounded => ⟨.failed, [], "UNBOUNDED"⟩
    | .empty => ⟨.infeasible, [], "INFEASIBLE"⟩

/-- The first finding with one of several slacks that is not empty. -/
def attemptEach (p : Program K) : List Rat → Except (Error K) (Solution K)
  | [] => .ok ⟨.infeasible, [], "INFEASIBLE"⟩
  | s :: rest => do
    let found ← attempt p s
    if found.status = .infeasible then attemptEach p rest else return found

/-- Solve a program. -/
def solve (p : Program K) : Except (Error K) (Solution K) := do
  let found ← attempt p 0
  if found.status = .infeasible then
    let relaxed ← attempt p slack
    if relaxed.status = .infeasible then return relaxed else attemptEach p slacks
  else return found

/-- A limit on time must be a number of milliseconds that the solver can hold. -/
def checkTimeLimit (settings : Settings K) : Except (Error K) Unit :=
  let check (milliseconds : Rat) : Except (Error K) Unit :=
    if milliseconds.ceil < (Nat.pow 2 63 : Int) then .ok () else .error (.overflow .hugeLimit)
  match settings.timeLimit with
  | none => .ok ()
  | some (.flag _) => .ok ()
  | some (.int n) => check (n * 1000)
  | some (.real x) =>
    let milliseconds := x * Scalar.ofRat 1000
    match Scalar.toRat? milliseconds with
    | some q => check q
    | none =>
      .error (if 0 < milliseconds then .overflow .infiniteLimit else .invalid .undefinedLimit)

/-- A tolerance must be a number that the solver can hold. -/
def checkTolerance (settings : Settings K) : Except (Error K) Unit :=
  match settings.tolerance with
  | some (.int n) =>
    if (Scalar.ofInt? n : Option K).isSome then .ok () else .error (.mistyped .solverTolerance)
  | _ => .ok ()

/-- The settings that the solver itself is given. -/
def checkLimits (settings : Settings K) : Except (Error K) Unit := do
  checkTimeLimit settings
  checkTolerance settings

/-! ### Backends by name -/

/-- The solver that has the backends of a library, behind the checks of the settings. -/
def guarded (library : Library K) : Solver K := fun settings p => do
  match ← library settings.backend with
  | none => .error (.solver (.unavailable settings.backend.label))
  | some backend => do
    checkLimits settings
    backend p

/-- The library with the standard backend, under the two names that settings mention. -/
def library : Library K
  | .text name => .ok (if name = "SCIP" ∨ name = "CBC" then some solve else none)
  | _ => .error (.mistyped .backendName)

/-- The standard solver. -/
def solver : Solver K :=
  guarded library

end RuleAudit.Standard
