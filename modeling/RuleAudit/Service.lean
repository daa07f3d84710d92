import RuleAudit.Query.Contradiction
import RuleAudit.Query.Simplify
import RuleAudit.Service.Payload
import RuleAudit.Service.Route
import RuleAudit.Tree.Items

/-!
# The service

Rule sets are sent to the service with their settings, and it answers with a status and a body.
Malformed definitions are the sender's fault; a solver that gives no verdict is not. An error of any
other kind is no answer at all and is passed on.
-/

namespace RuleAudit.Service

variable {K : Type} [Scalar K]

/-- A status and a body. -/
structure Response (K : Type) where
  status : Nat
  body : Datum K

/-- The answer that everything went well. -/
def ok (fields : List (String × Datum K)) : Response K :=
  ⟨200, .record fields⟩

/-- A list of texts. -/
def texts (ss : List String) : Datum K :=
  .list (ss.map .text)

/-! ### Refusals -/

/-- An answer without a rule set. -/
def refusal (status : Nat) (reason : String) : Response K :=
  ⟨status, .record [("detail", .text reason)]⟩

/-- The answer to a body that does not fit. -/
def unfit (findings : List (Finding K)) : Response K :=
  ⟨422, .record [("detail", .list (findings.map fun f =>
    .list [.text f.fault.name, .list f.path]))]⟩

/-- An error and its wording, with more fields. -/
def errorBody (name : String) (e : Error K) (more : List (String × Datum K)) : Datum K :=
  .record ([("error", .text name), ("detail", .text e.message)] ++ more)

/-- The fields of the place of an error. -/
def siteFields (site : Site K) : List (String × Datum K) :=
  [("rule", site.rule), ("clause_index", (site.clause.map fun n => .int n).getD .null)]

/-- The answer to an error, unless it is passed on. -/
def answerTo (e : Error K) : Except (Error K) (Response K) :=
  match e with
  | .definition site _ => .ok ⟨422, errorBody "DefinitionError" e (siteFields site)⟩
  | .encoding site _ => .ok ⟨422, errorBody "EncodingError" e (siteFields site)⟩
  | .notConverged rounds last => return ⟨422, errorBody "NotConvergedError" e
      [("iterations", .int rounds), ("rules", .list (← Tree.ofRules last))]⟩
  | .solver fault => .ok ⟨503, errorBody "SolverError" e [("status", .text fault.status)]⟩
  | e => .error e

/-! ### Requests -/

/-- An error that a body can be blamed for becomes an error of its definitions. -/
def blame (e : Error K) : Error K :=
  match e with
  | .mistyped m => .flaw (.inRequest m.message)
  | .invalid v => .flaw (.inRequest v.message)
  | e => e

/-- The rule set of a body, with an oracle for its settings. -/
def opened (solver : Solver K) (p : Payload K) : Reported K (RuleSet K × Oracle K) :=
  tryCatch (do
    let settings ← Settings.ofMapping p.settings
    let items := p.items.map fun i => Datum.record [("name", .text i.name), ("expr", i.expr)]
    let s ← Tree.ofItems items true
    return (s, ⟨solver, settings⟩)) fun e => throw (blame e)

/-- Whether a rule set is feasible, with values or with its culprits. -/
def feasibility (s : RuleSet K) (o : Oracle K) : Except (Error K) (Response K) := do
  let found ← o.check s
  let culprits ← if found.feasible then pure []
    else pure [("infeasible_rules", texts (← o.culprits s))]
  return ok ([("feasible", .bool found.feasible), ("solver_status", .text found.status),
    ("assignment", .record (found.assignment.map fun (v, r) => (v, r.toDatum)))] ++ culprits)

/-- The answer about a rule of a set, if the set has it. -/
def aboutRule (s : RuleSet K) (name key : String) (ask : Reported K (List String)) :
    Reported K (Response K) := do
  if s.contains name then return ok [("rule", .text name), (key, texts (← ask))]
  else return ⟨404, .record [("error", .text "UnknownRule"),
    ("detail", .text ("Unknown rule '" ++ name ++ "'"))]⟩

/-- A simplified rule set. -/
def simplified (s : RuleSet K) (o : Oracle K) (bindings : List (Datum K × Datum K)) :
    Reported K (Response K) := do
  let result ← o.simplify s (bindings.map fun (k, v) => (k.label, v))
  return ok [("rules", .list (← Tree.ofRules result))]

/-- Answer a request on a route. -/
def onRoute (solver : Solver K) (route : Route) (body : Option (Datum K)) :
    Reported K (Response K) :=
  match route with
  | .ping => return ok [("status", .text "ok")]
  | route => match Payload.read (route = .simplify) body with
    | .error findings => return unfit findings
    | .ok payload => do
      let (s, o) ← opened solver payload
      match route with
      | .impliedBy name => aboutRule s name "implied_by" (o.impliedBy s name)
      | .contradictedBy name => aboutRule s name "contradicted_by" (o.contradictedBy s name)
      | .simplify => simplified s o payload.bindings
      | _ => feasibility s o

/-- Answer a request on a route. An error is answered too, unless it is passed on. -/
def answer (solver : Solver K) (route : Route) (body : Option (Datum K)) :
    Reported K (Response K) :=
  tryCatch (onRoute solver route body) fun e => Reported.lift (answerTo e)

/-- Answer a request. A body with a number that is infinite or undefined cannot be sent. -/
def respond (solver : Solver K) (method target : String) (body : Option (Datum K)) :
    Reported K (Response K) :=
  if (body.map Datum.isBounded).getD true = false then throw (.invalid .unboundedBody) else
  match Route.ofTarget? target with
  | none => return refusal 404 "Not Found"
  | some route =>
    if method.toUpper = route.method then answer solver route body
    else return refusal 405 "Method Not Allowed"

end RuleAudit.Service
