import RuleAudit.Proofs.Program.Closed
import RuleAudit.Proofs.Rule.Derived
import RuleAudit.Query

/-!
# What a query can come to

A query about rules ends with an answer, with an error in a definition, without a verdict, or with
an error of the solver's own (`Oracle.ends_solve`). Nothing that is looked up on the way is missing,
if the solver's points are complete. A feasible answer has a value of the right kind for every
variable of the rules (`Feasibility.Assigns`). All this holds for any solver and any numbers.
-/

namespace RuleAudit

open Outcome

variable {K : Type} [Scalar K]

/-! ### Reading points -/

/-- The kind of variable that a reading is for. -/
def Reading.kind {V : Type} : Reading V → VarKind
  | number _ => .numeric
  | label _ => .categorical

namespace Program

variable {point : List (String × K)}

theorem exists_valueAt {name : String} (h : name ∈ point.map (·.1)) :
    ∃ x, valueAt (K := K) point name = .ok x := by
  rw [valueAt]
  cases hget : Assoc.get? name point with
  | some x => exact ⟨x, rfl⟩
  | none => exact absurd h (Assoc.get?_eq_none.mp hget)

theorem exists_chosen {indicators : Indicators} (hne : indicators ≠ [])
    (h : ∀ i ∈ indicators, i.2 ∈ point.map (·.1)) :
    ∃ l, chosen (K := K) point indicators = .ok l := by
  have : Nonempty K := ⟨0⟩
  obtain ⟨values, hvalues, hlength⟩ : ∃ values, (indicators.mapM fun i => do
      return (i.1, ← valueAt (K := K) point i.2)) = .ok values ∧ values ≠ [] := by
    choose! value hvalue using fun i hi => exists_valueAt (K := K) (h i hi)
    refine ⟨indicators.map fun i => (i.1, value i), mapM_eq_map fun i hi => ?_, by simpa⟩
    rw [hvalue i hi]
    rfl
  rw [chosen, hvalues, ok_bind]
  cases values with
  | nil => exact absurd rfl hlength
  | cons first rest => exact ⟨_, rfl⟩

variable {u : Usage} {clauses : List (Clause K)} (hu : u.Covers clauses)
  {settings : Settings K} {parts : List (String × Encoding K)}

include hu

/-- A complete point is read as values of the variables in use. -/
theorem exists_readings
    (hpoint : ∀ d ∈ (assemble (u.vocabulary settings) parts).vars, d.name ∈ point.map (·.1)) :
    ∃ number label, (assemble (u.vocabulary settings) parts).decode point =
      .ok (u.readings number label) := by
  have hvars : ∀ d ∈ (u.vocabulary settings).vars, d.name ∈ point.map (·.1) := fun d hd =>
    hpoint d (List.mem_append_left _ hd)
  rw [hu.vars_eq, List.forall_mem_append] at hvars
  obtain ⟨hnumeric, hcategorical⟩ := hvars
  have : Nonempty K := ⟨0⟩
  choose! number hnumber using fun n (hn : n ∈ u.ofKind .numeric) =>
    exists_valueAt (K := K) (hnumeric _ (List.mem_map_of_mem hn))
  have hchosen : ∀ n ∈ u.ofKind .categorical, ∃ l, chosen (K := K) point
      ((u.options n).map fun l => (l, indicatorName n l)) = .ok l := fun n hn => by
    refine exists_chosen (by simpa using List.ne_nil_of_mem (u.none_mem_options n)) fun i hi => ?_
    obtain ⟨l, hl, rfl⟩ := List.mem_map.mp hi
    exact hcategorical _ (List.mem_flatMap.mpr ⟨n, hn, List.mem_map_of_mem hl⟩)
  choose! label hlabel using hchosen
  exact ⟨number, label, decode_assemble hu number label hnumber hlabel⟩

/-- A complete point gives every variable in use a value of its kind. -/
theorem exists_decode
    (hpoint : ∀ d ∈ (assemble (u.vocabulary settings) parts).vars, d.name ∈ point.map (·.1)) :
    ∃ readings, (assemble (u.vocabulary settings) parts).decode point = .ok readings ∧
      ∀ e ∈ clauses.flatMap Clause.uses,
        ∃ x, Assoc.get? e.1 readings = some x ∧ x.kind = e.2 := by
  obtain ⟨number, label, hdecode⟩ := exists_readings hu hpoint
  have hnodup := hu.nodup_readings number label
  refine ⟨u.readings number label, hdecode, fun ⟨n, kind⟩ he => ?_⟩
  have hn : n ∈ u.ofKind kind := hu.mem_ofKind.mpr he
  cases kind with
  | numeric =>
    exact ⟨_, Assoc.get?_of_mem hnodup (List.mem_append_left _ (List.mem_map_of_mem hn)), rfl⟩
  | categorical =>
    exact ⟨_, Assoc.get?_of_mem hnodup (List.mem_append_right _ (List.mem_map_of_mem hn)), rfl⟩

end Program

/-! ### Solving -/

/-- What can go wrong in a query: a definition is malformed, the solver gives no verdict or has an
error of its own, a simplification does not end in time, or rules are counted up to a limit that is
no integer. -/
inductive Oracle.Fails (o : Oracle K) : Error K → Prop
  | refused {e : Error K} (h : Tree.isSkippable e = true) : Fails o e
  | undecided (fault : SolverFault) : Fails o (.solver fault)
  | unfinished (rounds : Nat) {s : RuleSet K} (h : s.IsProper) : Fails o (.notConverged rounds s)
  | uncounted {e : Error K} {count : Nat} (h : o.settings.removals count = .error e) : Fails o e
  | raised {e : Error K} {p : Program K} (hp : p.IsClosed) (h : o.solver o.settings p = .error e) :
    Fails o e

theorem Oracle.Fails.of_isDefinition {o : Oracle K} {e : Error K} (h : e.IsDefinition) :
    o.Fails e :=
  .refused (Error.isSkippable_of_isDefinition h)

/-- The rules agree on the kind of every variable, and all variables have values of their kinds. -/
structure Feasibility.Assigns (f : Feasibility K) (rules : List (Rule K)) : Prop where
  kinds : KindConsistent rules
  exists_get? : ∀ u ∈ (rules.flatMap Rule.clauses).flatMap Clause.uses,
    ∃ x, Assoc.get? u.1 f.assignment = some x ∧ x.kind = u.2

/-- Rules that always hold have no variables. -/
theorem Feasibility.assigns_trivial {rules : List (Rule K)}
    (h : rules.allM (·.isTautology) = .ok true) : (trivial (K := K) true).Assigns rules := by
  have halways := eq_ok_of_allM h
  refine ⟨Rule.kindConsistent_of_isTautology halways, fun u hu => ?_⟩
  rw [List.flatMap_assoc] at hu
  obtain ⟨r, hr, hu⟩ := List.mem_flatMap.mp hu
  obtain ⟨-, -, hclauses⟩ := Rule.exists_dnf_of_isTautology (halways r hr)
  rw [hclauses] at hu
  cases hu

theorem Solution.failsOnly_verdict (o : Oracle K) (solution : Solution K) (context : String) :
    FailsOnly o.Fails (solution.verdict context) := by
  rw [verdict]
  split
  · exact failsOnly_ok _
  · exact failsOnly_ok _
  · exact failsOnly_error (.undecided _)

theorem Solution.verdict_eq_true {solution : Solution K} {context : String} :
    solution.verdict (K := K) context = .ok true ↔ solution.status = .feasible := by
  rw [verdict]
  cases solution.status <;> simp

namespace Oracle

variable {o : Oracle K} {rules : List (Rule K)} (ho : o.solver.IsComplete)

theorem failsOnly_isTautology (r : Rule K) : FailsOnly o.Fails r.isTautology :=
  (r.failsOnly_dnf.mono fun _ => .of_isDefinition).map _

theorem failsOnly_isContradiction (r : Rule K) : FailsOnly o.Fails r.isContradiction :=
  (r.failsOnly_dnf.mono fun _ => .of_isDefinition).map _

include ho

/-- The answer for a program of rules. -/
theorem ends_solution {p : Program K} (hp : Program.ofRules rules o.settings = .ok p)
    (context : String) : Ends o.Fails (fun f => f.feasible = true → f.Assigns rules)
      (do
        let solution ← o.solver o.settings p
        let feasible ← solution.verdict context
        return (⟨feasible, solution.detail, ← solution.decode p⟩ : Feasibility K)) := by
  have hclosed := (Program.ends_ofRules rules o.settings).result p hp
  have hraised : FailsOnly o.Fails (o.solver o.settings p) := fun _ he => .raised hclosed he
  obtain ⟨u, parts, hu, -, rfl⟩ := Program.ofRules_eq_ok.mp hp
  have hcovers := (Usage.covers_ofRules hu).1
  refine hraised.ends.bind fun solution hsolution => ?_
  refine (solution.failsOnly_verdict o context).ends.bind fun feasible hverdict => ?_
  by_cases hstatus : solution.status = .feasible
  · obtain ⟨readings, hreadings, hassigned⟩ := Program.exists_decode hcovers
      (ho _ _ hclosed solution hsolution hstatus)
    rw [Solution.decode, hstatus, hreadings]
    exact ends_ok fun _ => ⟨Usage.exists_ofRules_iff.mp ⟨u, hu⟩, hassigned⟩
  · have hdecode : solution.decode (.assemble (u.vocabulary o.settings) parts) = .ok [] := by
      rw [Solution.decode]
      split
      · contradiction
      · rfl
    rw [hdecode]
    refine ends_ok fun hfeasible => absurd ?_ hstatus
    have htrue : feasible = true := hfeasible
    exact Solution.verdict_eq_true.mp (htrue ▸ hverdict)

/-- A query ends with an answer, which has values for all variables if it is feasible. -/
theorem ends_solve (rules : List (Rule K)) (context : String) :
    Ends o.Fails (fun f => f.feasible = true → f.Assigns rules) (o.solve rules context) := by
  refine (failsOnly_allM fun r _ => failsOnly_isTautology r).ends.bind fun always halways => ?_
  refine ends_ite (fun h => ends_ok fun _ => Feasibility.assigns_trivial (h ▸ halways)) fun _ => ?_
  refine (failsOnly_anyM fun r _ => failsOnly_isContradiction r).ends.bind fun never _ => ?_
  refine ends_ite (fun _ => ends_ok fun h => nomatch h) fun _ => ?_
  have hprogram := (Program.ends_ofRules rules o.settings).failsOnly
  exact (hprogram.mono fun _ => .refused).ends.bind fun p hp => ends_solution ho hp context

theorem ends_feasible (rules : List (Rule K)) (context : String) :
    Ends o.Fails (fun b => b = true → KindConsistent rules) (o.feasible rules context) :=
  (ends_solve ho rules context).map fun _ hf h => (hf h).kinds

theorem failsOnly_feasible (rules : List (Rule K)) (context : String) :
    FailsOnly o.Fails (o.feasible rules context) :=
  (ends_feasible ho rules context).failsOnly

theorem failsOnly_isFeasible (s : RuleSet K) : FailsOnly o.Fails (o.isFeasible s) :=
  failsOnly_feasible ho s.rules "checking feasibility"

end Oracle

end RuleAudit
