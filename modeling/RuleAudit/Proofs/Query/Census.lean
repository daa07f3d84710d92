import RuleAudit.Proofs.Program.Census
import RuleAudit.Proofs.Query.Hinted
import RuleAudit.Proofs.Query.Outcomes
import RuleAudit.Query.Fixed

/-!
# The variables of a set and of its program

A set lists its variables by first use. Its program keeps the numeric ones apart from the
categorical ones, each in this order, and what is read off a complete point are values for just
the same variables (`Program.Counts`). So an answer assigns the variables of the set, and the
search for fixed ones looks up a value for each (`Oracle.ReadsAll`).
-/

namespace RuleAudit

open Outcome

variable {K : Type} [Scalar K]

/-! ### What a program counts -/

/-- A program is about the variables of a table and about labels, and so is what is read off its
points. -/
structure Program.Counts (p : Program K) (table : List (String × VarKind))
    (labels : List (String × List String)) : Prop where
  numeric : p.numeric.map (·.1) = namesOf .numeric table
  indicators : p.indicators.map (·.1) = namesOf .categorical table
  labels : ∀ i ∈ p.indicators, ∃ known, Assoc.get? i.1 labels = some known ∧
    i.2.map (·.1) = known.map some ++ [none]
  decode : ∀ point : List (String × K), (∀ d ∈ p.vars, d.name ∈ point.map (·.1)) →
    ∃ values, p.decode point = .ok values ∧ (values.map fun e => (e.1, e.2.kind)).Perm table

/-- Values of the variables in use are values of all variables of the table. -/
theorem Usage.perm_readings {V : Type} (u : Usage) (number : String → V)
    (label : String → Option String) :
    ((u.readings number label).map fun e => (e.1, e.2.kind)).Perm u.kinds := by
  have hentries (kind : VarKind) :
      (u.ofKind kind).map (fun n => (n, kind)) = u.kinds.filter (·.2 = kind) := by
    rw [ofKind, List.map_map]
    refine (List.map_congr_left fun e he => ?_).trans (List.map_id _)
    exact Prod.ext rfl (of_decide_eq_true (List.mem_filter.mp he).2).symm
  have hreadings : (u.readings number label).map (fun e => (e.1, e.2.kind)) =
      u.kinds.filter (·.2 = .numeric) ++ u.kinds.filter (·.2 = .categorical) := by
    rw [readings, List.map_append, List.map_map, List.map_map, ← hentries, ← hentries]
    rfl
  have hrest : u.kinds.filter (·.2 = .categorical) =
      u.kinds.filter fun e => !decide (e.2 = .numeric) :=
    List.filter_congr fun e _ => by cases e.2 <;> rfl
  rw [hreadings, hrest]
  exact List.filter_append_perm _ _

namespace RuleSet

variable {s : RuleSet K} {table : List (String × VarKind)}

/-- The program of a set counts the variables of the set. -/
theorem exists_counts (h : s.kinds = .ok table) (settings : Settings K) :
    ∃ labels p, s.labels = .ok labels ∧ Program.ofRules s.rules settings = .ok p ∧
      p.Counts table labels := by
  obtain ⟨u, hu, rfl⟩ := (Usage.parallel_ofRules s).exists_of_ok h
  obtain ⟨parts, hp⟩ := Program.exists_parts hu settings
  have hcovers := (Usage.covers_ofRules hu).1
  refine ⟨u.labels, _, Usage.labels_eq_of_ofRules hu, hp, ?_, ?_, ?_, ?_⟩
  · rw [Program.numeric_assemble hcovers, List.map_map]
    exact List.map_id _
  · rw [Program.indicators_assemble hcovers, List.map_map]
    exact List.map_id _
  · rw [Program.indicators_assemble hcovers]
    intro i hi
    obtain ⟨n, hn, rfl⟩ := List.mem_map.mp hi
    obtain ⟨labels, hlabels⟩ := Usage.exists_get?_labels hu hn
    refine ⟨labels, hlabels, ?_⟩
    have hoptions : u.options n = labels.map some ++ [none] := by
      rw [Usage.options, labelsOf, hlabels]
      rfl
    rw [List.map_map, ← hoptions]
    exact List.map_id _
  · intro point hpoint
    obtain ⟨number, label, hdecode⟩ := Program.exists_readings hcovers hpoint
    exact ⟨_, hdecode, u.perm_readings number label⟩

/-- A set of rules that always hold has no variables. -/
theorem kinds_eq_nil (h : s.rules.allM (·.isTautology) = .ok true) : s.kinds = .ok [] := by
  obtain ⟨hkinds, hassigned⟩ := Feasibility.assigns_trivial h
  obtain ⟨table, htable, htab⟩ := exists_kinds hkinds
  have hnil : table = [] := List.eq_nil_iff_forall_not_mem.mpr fun e he => by
    obtain ⟨x, hx, -⟩ := hassigned e ((htab.mem_iff e).mp he)
    cases hx
  rw [htable, hnil]

end RuleSet

/-! ### What an answer assigns -/

namespace Oracle

variable {o : Oracle K} {s : RuleSet K} {table : List (String × VarKind)} {found : Feasibility K}

/-- Those of some variables that have one value only, given their readings at some point. -/
def fixedAmong (o : Oracle K) (s : RuleSet K) (readings : List (String × Reading K)) :
    Except (Error K) (List (String × FixedValue K)) := do
  let values ← readings.mapM fun (var, reading) =>
    return (← o.fixedValue? s var reading).map fun v => (var, v)
  return values.filterMap id

/-- An answer assigns just the variables of a table, and for fixed ones the search looks up all
their values. -/
structure ReadsAll (o : Oracle K) (s : RuleSet K) (table : List (String × VarKind))
    (found : Feasibility K) : Prop where
  assignment : (found.assignment.map fun e => (e.1, e.2.kind)).Perm table
  fixed : ∃ readings : List (String × Reading K),
    readings.map (fun e => (e.1, e.2.kind)) = table ∧
      (∀ e ∈ readings, Assoc.get? e.1 found.assignment = some e.2) ∧
      (o.fixed s).outcome = o.fixedAmong s readings

/-- A feasible answer assigns the variables of the set. -/
theorem perm_assignment (ho : o.solver.IsComplete) (htable : s.kinds = .ok table)
    (hfound : o.check s = .ok found) (hfeasible : found.feasible = true) :
    (found.assignment.map fun e => (e.1, e.2.kind)).Perm table := by
  obtain ⟨always, halways, hfound⟩ := bind_eq_ok.mp hfound
  cases always with
  | true =>
    obtain rfl := Except.ok.inj hfound
    obtain rfl := Except.ok.inj (htable.symm.trans (RuleSet.kinds_eq_nil halways))
    exact .nil
  | false =>
    obtain ⟨never, -, hfound⟩ := bind_eq_ok.mp hfound
    cases never with
    | true =>
      obtain rfl := Except.ok.inj hfound
      cases hfeasible
    | false =>
      obtain ⟨p, hp, hfound⟩ := bind_eq_ok.mp hfound
      obtain ⟨solution, hsolution, hfound⟩ := bind_eq_ok.mp hfound
      obtain ⟨feasible, hverdict, hfound⟩ := bind_eq_ok.mp hfound
      obtain ⟨assignment, hassignment, hfound⟩ := bind_eq_ok.mp hfound
      obtain rfl := Except.ok.inj hfound
      obtain rfl : feasible = true := hfeasible
      have hstatus := Solution.verdict_eq_true.mp hverdict
      have hclosed := (Program.ends_ofRules s.rules o.settings).result p hp
      obtain ⟨_, q, -, hq, hcounts⟩ := RuleSet.exists_counts htable o.settings
      obtain rfl := Except.ok.inj (hp.symm.trans hq)
      obtain ⟨values, hvalues, hperm⟩ := hcounts.decode solution.point
        (ho _ _ hclosed solution hsolution hstatus)
      rw [Solution.decode, hstatus] at hassignment
      obtain rfl := Except.ok.inj (hassignment.symm.trans hvalues)
      exact hperm

/-- The values of all variables are there to be looked up. -/
theorem readsAll (ho : o.solver.IsComplete) (htable : s.kinds = .ok table)
    (hfound : o.check s = .ok found) (hfeasible : found.feasible = true) :
    o.ReadsAll s table found := by
  have hperm := perm_assignment ho htable hfound hfeasible
  have hnodup : (found.assignment.map (·.1)).Nodup := by
    have hkeys := (hperm.map (·.1)).nodup_iff.mpr (RuleSet.tabulates_kinds htable).nodup
    rwa [List.map_map] at hkeys
  have hreading : ∀ e ∈ table, ∃ x, Assoc.get? e.1 found.assignment = some x ∧ x.kind = e.2 := by
    intro e he
    obtain ⟨⟨n, x⟩, hmem, rfl⟩ := List.mem_map.mp (hperm.mem_iff.mpr he)
    exact ⟨x, Assoc.get?_of_mem hnodup hmem, rfl⟩
  have : Nonempty (Reading K) := ⟨.label none⟩
  choose! reading hget hkind using hreading
  refine ⟨hperm, table.map fun e => (e.1, reading e), ?_, ?_, ?_⟩
  · rw [List.map_map]
    refine (List.map_congr_left fun e he => ?_).trans (List.map_id _)
    exact Prod.ext rfl (hkind e he)
  · intro _ hmem
    obtain ⟨e, he, rfl⟩ := List.mem_map.mp hmem
    exact hget e he
  · rw [fixed, Reported.outcome_bind, Reported.outcome_monadLift, hfound, ok_bind, hfeasible,
      if_neg (by simp), Reported.outcome_lift, htable, ok_bind, fixedAmong, List.mapM_map]
    refine congrArg (· >>= _) (mapM_congr fun e he => ?_)
    dsimp only
    rw [hget e he]
    rfl

end Oracle

/-- The points of an exact solver are feasible, so they have values for all variables. -/
theorem Solver.IsComplete.of_exactOn {solver : Solver Rat}
    (h : ∀ settings p, solver.ExactOn settings p) : solver.IsComplete := by
  intro settings p _ solution hsolution hstatus d hd
  obtain ⟨answer, hanswer, ⟨-, hpoint⟩ | ⟨hinfeasible, -⟩⟩ := h settings p
  · obtain rfl := Except.ok.inj (hsolution.symm.trans hanswer)
    exact List.mem_map_of_mem (f := (·.1)) (Assoc.mem_of_get? (hpoint.get? hd).1)
  · obtain rfl := Except.ok.inj (hsolution.symm.trans hanswer)
    cases hinfeasible.symm.trans hstatus

/-! ### Both censuses -/

/-- **Two censuses agree.** A set cannot count its variables for a conflict of kinds exactly when
this keeps its rules from having a program, and both name the same rule. If there is no conflict
between rules that have normal forms of clauses, the program has the numeric and the categorical
variables of the set, each in order of first use, with the labels of the set and the one for all
others, and a complete point is read as values of just these variables, of which there are none if
all rules always hold. So a search for fixed variables finds a value for each of them. -/
theorem RuleSet.census_agrees (s : RuleSet K) (settings : Settings K) :
    (∀ rule, (∃ e, Program.ofRules s.rules settings = .error e ∧ e.IsKindConflict rule) ↔
      ∃ e, s.kinds = .error e ∧ e.IsKindConflict rule) ∧
    ((∀ r ∈ s.rules, ∃ d, r.dnf = .ok d ∧ d.Within Clause.IsProper) →
      (∀ e, s.kinds = .error e → ∀ rule, ¬ e.IsKindConflict rule) →
      ∃ table labels p, s.kinds = .ok table ∧ s.labels = .ok labels ∧
        Program.ofRules s.rules settings = .ok p ∧ p.Counts table labels ∧
        (s.rules.allM (·.isTautology) = .ok true → table = []) ∧
        ∀ solver : Solver K, solver.IsComplete → ∀ found,
          Oracle.check ⟨solver, settings⟩ s = .ok found → found.feasible = true →
            Oracle.ReadsAll ⟨solver, settings⟩ s table found) := by
  refine ⟨fun rule => ?_, fun hnormal hfree => ?_⟩
  · simp only [Program.ofRules_eq_error]
    exact (Usage.parallel_ofRules s).exists_error_iff fun e e' h => h.isKindConflict_iff rule
  · cases htable : s.kinds with
    | error e =>
      obtain ⟨r, -, hconflict⟩ := failsOnly_kinds_conflict hnormal e htable
      exact absurd hconflict (hfree e htable _)
    | ok table =>
      obtain ⟨labels, p, hlabels, hp, hcounts⟩ := exists_counts htable settings
      refine ⟨table, labels, p, rfl, hlabels, hp, hcounts, fun halways => ?_,
        fun solver hsolver found hfound hfeasible =>
          Oracle.readsAll hsolver htable hfound hfeasible⟩
      exact Except.ok.inj (htable.symm.trans (kinds_eq_nil halways))

/-- A solver that is told a point for a color and a bound. -/
theorem RuleSet.census_agrees_color :
    let shade : Rule Rat := ⟨"shade", .atom (.membership (.ofLabels ⟨"color", by decide⟩ ["red"]
      false)), none, by decide +kernel, by simp, none⟩
    let tall : Rule Rat := ⟨"tall", .atom (.linear (.canonical [(⟨"x", by decide⟩, 1)] .ge 1)),
      none, by decide +kernel, by simp, none⟩
    let s : RuleSet Rat := ⟨[shade, tall], by decide⟩
    let solver := Solver.hinted [[("num[x]", 1), ("cat[color=red]", 1), ("cat[color]*", 0)]]
    (∀ r ∈ s.rules, ∃ d, r.dnf = .ok d ∧ d.Within Clause.IsProper) ∧
      s.kinds = .ok [("color", .categorical), ("x", .numeric)] ∧ solver.IsComplete ∧
      ∃ settings p found, Settings.default = .ok settings ∧
        Program.ofRules s.rules settings = .ok p ∧
        p.Counts [("color", .categorical), ("x", .numeric)] [("color", ["red"])] ∧
        Oracle.check ⟨solver, settings⟩ s = .ok found ∧ found.feasible = true ∧
        Oracle.ReadsAll ⟨solver, settings⟩ s [("color", .categorical), ("x", .numeric)] found := by
  intro shade tall s solver
  have hkinds : s.kinds = .ok [("color", .categorical), ("x", .numeric)] :=
    eq_ok_of_toOption (by decide +kernel)
  have hlabels : s.labels = .ok [("color", ["red"])] := eq_ok_of_toOption (by decide +kernel)
  obtain ⟨u, hu⟩ := Usage.exists_ofRules_iff.mpr (by decide +kernel : KindConsistent s.rules)
  have hnormal := (Usage.covers_ofRules hu).2
  have hsolver : solver.IsComplete := .of_exactOn fun settings p => Solver.hinted_exact _ settings p
  have hsome : (Settings.default (K := Rat)).toOption.any (fun settings =>
      (Oracle.check ⟨solver, settings⟩ s).toOption.any fun found => found.feasible) = true := by
    decide +kernel
  obtain ⟨settings, hsettings, hall⟩ := exists_of_any_toOption hsome
  obtain ⟨found, hfound, hfeasible⟩ := exists_of_any_toOption hall
  obtain ⟨-, hagree⟩ := RuleSet.census_agrees s settings
  obtain ⟨table, labels, p, htable, hlabels', hp, hcounts, -, hreads⟩ := hagree hnormal
    fun e he => by cases hkinds.symm.trans he
  obtain rfl := Except.ok.inj (hkinds.symm.trans htable)
  obtain rfl := Except.ok.inj (hlabels.symm.trans hlabels')
  exact ⟨hnormal, hkinds, hsolver, settings, p, found, hsettings, hp, hcounts, hfound, hfeasible,
    hreads solver hsolver found hfound hfeasible⟩

end RuleAudit
