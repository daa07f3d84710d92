import RuleAudit.Program.Build
import RuleAudit.Solver

/-!
# Feasibility queries

Every question about rules is answered by solving programs and reading the solver's verdicts. An
oracle is a solver with the settings that it is called with. Rules that all always hold, or of
which one never holds, are decided without it; a solver that gives no verdict makes the query fail.
-/

namespace RuleAudit

variable {K : Type} [Scalar K]

/-- Whether rules can hold together, how that was decided, and values under which they do. -/
structure Feasibility (K : Type) where
  feasible : Bool
  status : String
  assignment : List (String × Reading K)

/-- The answer that needs no solver. -/
def Feasibility.trivial (feasible : Bool) : Feasibility K :=
  ⟨feasible, "TRIVIAL", []⟩

/-- A solver with the settings that it is called with. -/
structure Oracle (K : Type) [Scalar K] where
  solver : Solver K
  settings : Settings K

namespace Oracle

variable (o : Oracle K)

/-- Whether rules can hold together. The context names the question in errors. -/
def solve (rules : List (Rule K)) (context : String) : Except (Error K) (Feasibility K) := do
  if ← rules.allM (·.isTautology) then return .trivial true
  if ← rules.anyM (·.isContradiction) then return .trivial false
  let program ← Program.ofRules rules o.settings
  let solution ← o.solver o.settings program
  let feasible ← solution.verdict context
  return ⟨feasible, solution.detail, ← solution.decode program⟩

/-- The verdict of `solve`. -/
def feasible (rules : List (Rule K)) (context : String) : Except (Error K) Bool :=
  return (← o.solve rules context).feasible

/-- Whether all rules of a set can hold together. -/
def check (s : RuleSet K) : Except (Error K) (Feasibility K) :=
  o.solve s.rules "checking feasibility"

/-- All rules of a set can hold together. -/
def isFeasible (s : RuleSet K) : Except (Error K) Bool :=
  return (← o.check s).feasible

/-- The first item that passes a test. With several workers all items are tested. -/
def first {α : Type} (test : α → Except (Error K) Bool) (items : List α) :
    Except (Error K) (Option α) :=
  if o.settings.maxWorkers.atMost 1 then items.findM? test
  else do
    let results ← items.mapM fun a => return (a, ← test a)
    return (results.find? (·.2)).map (·.1)

end Oracle

/-- The rule that holds where a rule fails. -/
def Rule.opposite (r : Rule K) : Except (Error K) (Rule K) := do
  ofDnf (.text ("~" ++ r.name)) (← r.negation)

end RuleAudit
