import RuleAudit.Program.Decode
import RuleAudit.Settings

/-!
# Solvers

A solver is handed a program and gives a solution: a point, the answer that there is none, or
nothing. Queries are written over any solver, and only ask it for verdicts and points. Settings name
the solver that is meant; a library tells what it has under a name.
-/

namespace RuleAudit

/-- What a solver found out. -/
inductive Status where
  | feasible
  | infeasible
  | failed
deriving DecidableEq, Repr

/-- The word for a status. -/
def Status.name : Status → String
  | feasible => "FEASIBLE"
  | infeasible => "INFEASIBLE"
  | failed => "SOLVER_ERROR"

/-- The answer of a solver: a status, a point if there is one, and the solver's own word. -/
structure Solution (V : Type) where
  status : Status
  point : List (String × V) := []
  detail : String

namespace Solution

variable {K V : Type} [Scalar K]

/-- Whether the program is feasible; an error when the solver did not find out. -/
def verdict (s : Solution V) (context : String) : Except (Error K) Bool :=
  match s.status with
  | .feasible => .ok true
  | .infeasible => .ok false
  | .failed => .error (.solver (.noVerdict context s.detail))

/-- The values of the rules' variables, none unless the program is feasible. -/
def decode [LT V] [DecidableLT V] (s : Solution V) (p : Program K) :
    Except (Error K) (List (String × Reading V)) :=
  match s.status with
  | .feasible => p.decode s.point
  | _ => .ok []

end Solution

/-- A solver. -/
abbrev Solver (K : Type) [Scalar K] :=
  Settings K → Program K → Except (Error K) (Solution K)

/-- A solver that takes no settings. -/
abbrev Backend (K : Type) [Scalar K] :=
  Program K → Except (Error K) (Solution K)

/-- The backends by name. There may be none of a name, and what is no name may be refused. -/
abbrev Library (K : Type) [Scalar K] :=
  Datum K → Except (Error K) (Option (Backend K))

end RuleAudit
