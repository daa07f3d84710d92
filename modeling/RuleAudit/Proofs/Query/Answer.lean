import RuleAudit.Proofs.Program.Exact
import RuleAudit.Query

/-!
# Answers of queries

A query for some rules is answered by a shortcut or by a solver. With a solver that is exact on the
program of the rules there is an answer (`Oracle.exists_answer`). If it is feasible, its assignment
consists of the values of a valuation in the box that is tight for all rules. If it is not, there is
no such valuation, as long as the labels of the rules stay apart; when two decision variables share
a name, the program asks for more than the rules do.
-/

namespace RuleAudit

/-! ### Tight rules -/

namespace Rule

variable {r : Rule Rat} {d : Dnf Rat} {settings : Settings Rat} {v w : Valuation}

/-- Being tight depends on the variables of the normal form only. -/
theorem TightAt.agree (h : r.TightAt settings w)
    (hvw : v.AgreesOn w (r.clauses.flatMap Clause.uses)) : r.TightAt settings v := by
  obtain ⟨d, hd, htrue⟩ := h
  rw [clauses_eq hd] at hvw
  exact ⟨d, hd, (Dnf.eval_agree _ hvw).trans htrue⟩

/-- A rule with an empty term is tight everywhere. -/
theorem tightAt_of_tautology (hd : r.dnf = .ok d) (h : d.any (·.isEmpty) = true) :
    r.TightAt settings v := by
  obtain ⟨term, hterm, hempty⟩ := List.any_eq_true.mp h
  rw [List.isEmpty_iff] at hempty
  exact (tightAt_iff hd).mpr (Dnf.eval_eq_true.mpr ⟨term, hterm, by simp [hempty]⟩)

/-- A rule without terms is tight nowhere. -/
theorem not_tightAt_of_contradiction (hd : r.dnf = .ok d) (h : d.isEmpty = true) :
    ¬ r.TightAt settings v := by
  rw [tightAt_iff hd, List.isEmpty_iff.mp h]
  exact Bool.false_ne_true

end Rule

section Admissible

variable {settings : Settings Rat} {rules rules' : List (Rule Rat)} {v : Valuation}

/-- A valuation is in the box and tight for all rules. -/
structure Admissible (settings : Settings Rat) (rules : List (Rule Rat)) (v : Valuation) :
    Prop where
  inBox : ∀ n, |v.number n| ≤ settings.bound n
  tight : ∀ r ∈ rules, r.TightAt settings v

/-- Some valuation in the box is tight for all rules. -/
def Satisfiable (settings : Settings Rat) (rules : List (Rule Rat)) : Prop :=
  ∃ v, Admissible settings rules v

theorem Admissible.mono (h : Admissible settings rules v) (hrules : rules' ⊆ rules) :
    Admissible settings rules' v :=
  ⟨h.inBox, fun r hr => h.tight r (hrules hr)⟩

theorem Satisfiable.mono (h : Satisfiable settings rules) (hrules : rules' ⊆ rules) :
    Satisfiable settings rules' :=
  h.imp fun _ hv => hv.mono hrules

theorem admissible_append : Admissible settings (rules ++ rules') v ↔
    Admissible settings rules v ∧ ∀ r ∈ rules', r.TightAt settings v := by
  constructor
  · exact fun h => ⟨h.mono (List.subset_append_left _ _),
      fun r hr => h.tight r (List.mem_append_right _ hr)⟩
  · exact fun h => ⟨h.1.inBox, List.forall_mem_append.mpr ⟨h.1.tight, h.2⟩⟩

theorem Settings.bound_pos (settings : Settings Rat) (n : String) : 0 < settings.bound n :=
  (settings.sizeOf n).pos

end Admissible

/-! ### Answers -/

/-- The solver tells for a program whether it has a feasible point, and gives one. -/
def Solver.ExactOn (solver : Solver Rat) (settings : Settings Rat) (p : Program Rat) : Prop :=
  ∃ solution, solver settings p = .ok solution ∧
    (solution.status = .feasible ∧ p.Feasible solution.point ∨
      solution.status = .infeasible ∧ ∀ point, ¬ p.Feasible point)

/-- What is read off for a variable of a kind. -/
def Valuation.reading (v : Valuation) (u : String × VarKind) : Reading Rat :=
  match u.2 with
  | .numeric => .number (v.number u.1)
  | .categorical => .label (v.label u.1)

/-- An answer to whether rules can hold together. -/
structure Feasibility.Answers (f : Feasibility Rat) (rules : List (Rule Rat))
    (settings : Settings Rat) : Prop where
  /-- A feasible assignment has the values of an admissible valuation, and no other labels than
  those that are mentioned. -/
  sound : f.feasible = true → ∃ v, Admissible settings rules v ∧
    (∀ n l, v.label n = some l → Mentioned rules n l) ∧
    ∀ u ∈ (rules.flatMap Rule.clauses).flatMap Clause.uses,
      Assoc.get? u.1 f.assignment = some (v.reading u)
  /-- When infeasible, nothing in the box is tight for all rules. -/
  refuted : f.feasible = false → LabelsApart rules → ∀ v : Valuation,
    v.InBox settings (numericVars rules) → ¬ ∀ r ∈ rules, r.TightAt settings v

section Solver

variable {rules : List (Rule Rat)} {settings : Settings Rat}

/-! ### Values that are read off -/

section Readings

variable {u : Usage} (hu : u.Covers (rules.flatMap Rule.clauses))
  {parts : List (String × Encoding Rat)} {readings : List (String × Reading Rat)}
  (hreadings : readings =
    (Valuation.ofReadings readings).readings (.assemble (u.vocabulary settings) parts))

include hu hreadings

/-- Only names of variables have values. -/
private theorem mem_readings {n : String} {x : Reading Rat} (h : (n, x) ∈ readings) :
    n ∈ u.ofKind .numeric ∧ x = .number ((Valuation.ofReadings readings).number n) ∨
      n ∈ u.ofKind .categorical ∧ x = .label (u.choice (.ofReadings readings) n) := by
  rw [hreadings, (Valuation.ofReadings readings).readings_assemble hu, List.mem_append,
    List.mem_map, List.mem_map] at h
  obtain ⟨m, hm, heq⟩ | ⟨m, hm, heq⟩ := h
  · cases heq
    exact .inl ⟨hm, rfl⟩
  · cases heq
    exact .inr ⟨hm, rfl⟩

/-- Names that are not read off have zero, so all numbers are in the box. -/
private theorem abs_number_le (h : (Valuation.ofReadings readings).InBox settings
    (numericVars rules)) (n : String) :
    |(Valuation.ofReadings readings).number n| ≤ settings.bound n := by
  by_cases hn : n ∈ numericVars rules
  · exact h n hn
  have hzero : (Valuation.ofReadings readings).number n = 0 := by
    rw [Valuation.ofReadings]
    dsimp only
    split
    · next x hx =>
      obtain ⟨hmem, -⟩ | ⟨-, heq⟩ := mem_readings hu hreadings (Assoc.mem_of_get? hx)
      · exact absurd (mem_namesOf.mpr (hu.mem_ofKind.mp hmem)) hn
      · cases heq
    · rfl
  rw [hzero, abs_zero]
  exact (settings.bound_pos n).le

/-- Labels that are read off are mentioned. -/
private theorem mentioned_of_label {n l : String}
    (h : (Valuation.ofReadings readings).label n = some l) : Mentioned rules n l := by
  rw [Valuation.ofReadings] at h
  dsimp only at h
  split at h
  · next label hlabel =>
    subst h
    obtain ⟨-, heq⟩ | ⟨-, heq⟩ := mem_readings hu hreadings (Assoc.mem_of_get? hlabel)
    · cases heq
    · have hchoice := u.choice_mem_options (.ofReadings readings) n
      rw [← Reading.label.inj heq, Usage.some_mem_options] at hchoice
      exact (hu.labels.mem_iff n l).mp hchoice
  · cases h

/-- Every variable in use has the value of the valuation that was read off. -/
private theorem get?_readings : ∀ e ∈ (rules.flatMap Rule.clauses).flatMap Clause.uses,
    Assoc.get? e.1 readings = some ((Valuation.ofReadings readings).reading e) := by
  generalize hv : Valuation.ofReadings readings = v at hreadings
  have hnodup : (readings.map (·.1)).Nodup := by
    rw [hreadings]
    exact v.nodup_readings hu
  rw [v.readings_assemble hu] at hreadings
  rintro ⟨n, kind⟩ hn
  rw [← hu.mem_ofKind] at hn
  refine Assoc.get?_of_mem hnodup ?_
  cases kind with
  | numeric =>
    rw [hreadings]
    exact List.mem_append_left _ (List.mem_map_of_mem hn)
  | categorical =>
    have hmem : (n, Reading.label (u.choice v n)) ∈ readings := by
      rw [hreadings]
      exact List.mem_append_right _ (List.mem_map_of_mem hn)
    have hlabel : v.label n = u.choice v n := by
      rw [← hv]
      exact (Valuation.label_ofReadings hnodup hmem).trans (by rw [hv])
    rw [Valuation.reading]
    dsimp only
    rwa [hlabel]

end Readings

namespace Feasibility

/-- When all rules always hold, so does the answer that needs no solver. -/
theorem answers_of_tautologies
    (h : ∀ r ∈ rules, ∃ d, r.dnf = .ok d ∧ d.any (·.isEmpty) = true) :
    (trivial true).Answers rules settings := by
  refine ⟨fun _ => ⟨⟨fun _ => 0, fun _ => none⟩, ⟨fun n => ?_, fun r hr => ?_⟩, ?_, ?_⟩,
    fun hfalse => by cases hfalse⟩
  · rw [abs_zero]
    exact (settings.bound_pos n).le
  · obtain ⟨d, hd, hempty⟩ := h r hr
    exact Rule.tightAt_of_tautology hd hempty
  · exact fun n l hl => by cases hl
  · intro u hu
    obtain ⟨c, hc, -⟩ := List.mem_flatMap.mp hu
    obtain ⟨r, hr, hc⟩ := List.mem_flatMap.mp hc
    obtain ⟨d, hd, hempty⟩ := h r hr
    rw [Rule.clauses_eq_nil_of_tautology hd hempty] at hc
    cases hc

theorem answers_of_refuted {f : Feasibility Rat} (hf : f.feasible = false)
    (h : LabelsApart rules → ∀ v : Valuation, v.InBox settings (numericVars rules) →
      ¬ ∀ r ∈ rules, r.TightAt settings v) : f.Answers rules settings :=
  ⟨fun htrue => absurd htrue (Bool.eq_false_iff.mp hf), fun _ => h⟩

end Feasibility

/-- What a solver that is exact on the program of rules finds out answers for the rules. -/
private theorem Solution.exists_answers {u : Usage} (hu : u.Covers (rules.flatMap Rule.clauses))
    {parts : List (String × Encoding Rat)}
    (hexpresses : Expresses u settings (parts.flatMap (·.2.vars)) (parts.flatMap (·.2.rows))
      fun v => ∀ r ∈ rules, r.TightAt settings v)
    (hp : Program.ofRules rules settings = .ok (.assemble (u.vocabulary settings) parts))
    {solution : Solution Rat}
    (hsolution :
      solution.status = .feasible ∧
        (Program.assemble (u.vocabulary settings) parts).Feasible solution.point ∨
      solution.status = .infeasible ∧
        ∀ point, ¬ (Program.assemble (u.vocabulary settings) parts).Feasible point)
    (context : String) :
    ∃ feasible readings, solution.verdict (K := Rat) context = .ok feasible ∧
      solution.decode (.assemble (u.vocabulary settings) parts) = .ok readings ∧
      Feasibility.Answers ⟨feasible, solution.detail, readings⟩ rules settings := by
  rcases hsolution with ⟨hstatus, hfeasible⟩ | ⟨hstatus, hinfeasible⟩
  · obtain ⟨readings, hdecode, hreadings, hbox, htight⟩ :=
      Program.decode_of_feasible hu hexpresses hfeasible
    refine ⟨true, readings, ?_, ?_, fun _ => ?_, fun hfalse => by cases hfalse⟩
    · rw [verdict, hstatus]
    · rw [decode, hstatus]
      exact hdecode
    · exact ⟨.ofReadings readings, ⟨abs_number_le hu hreadings hbox, htight⟩,
        fun n l => mentioned_of_label hu hreadings, get?_readings hu hreadings⟩
  · refine ⟨false, [], ?_, ?_, Feasibility.answers_of_refuted rfl fun hapart v hbox htight => ?_⟩
    · rw [verdict, hstatus]
    · rw [decode, hstatus]
    -- a tight valuation would be read off a point, but there is none
    · obtain ⟨point, hpoint, -⟩ := Program.exists_feasible hu hexpresses
        (Program.nodup_names_of_labelsApart hp hapart) hbox htight
      exact hinfeasible point hpoint

/-- With a solver that is exact on the program of rules, the query has an answer. -/
theorem Oracle.exists_answer (o : Oracle Rat) (hrules : KindConsistent rules)
    (hsolver : ∀ p, Program.ofRules rules o.settings = .ok p → o.solver.ExactOn o.settings p)
    (context : String) : ∃ f, o.solve rules context = .ok f ∧ f.Answers rules o.settings := by
  have hnormal : ∀ r ∈ rules, ∃ d, r.dnf = .ok d := fun r hr =>
    (hrules.exists_dnf hr).imp fun d => And.left
  choose! dnf hdnf using hnormal
  have htautologies : rules.allM (·.isTautology) =
      .ok (rules.all fun r => (dnf r).any (·.isEmpty)) :=
    Outcome.allM_eq_all fun r hr => Rule.isTautology_eq (hdnf r hr)
  have hcontradictions : rules.anyM (·.isContradiction) =
      .ok (rules.any fun r => (dnf r).isEmpty) := by
    refine Outcome.anyM_eq_any fun r hr => ?_
    rw [Rule.isContradiction, hdnf r hr]
    rfl
  rw [solve, htautologies, Outcome.ok_bind]
  by_cases htautology : (rules.all fun r => (dnf r).any (·.isEmpty)) = true
  · rw [if_pos htautology]
    -- the shortcuts ask no solver
    refine ⟨.trivial true, rfl, Feasibility.answers_of_tautologies fun r hr => ?_⟩
    exact ⟨dnf r, hdnf r hr, List.all_eq_true.mp htautology r hr⟩
  rw [if_neg htautology, hcontradictions, Outcome.ok_bind]
  by_cases hcontradiction : (rules.any fun r => (dnf r).isEmpty) = true
  · rw [if_pos hcontradiction]
    obtain ⟨r, hr, hempty⟩ := List.any_eq_true.mp hcontradiction
    refine ⟨.trivial false, rfl, Feasibility.answers_of_refuted rfl fun _ v _ htight => ?_⟩
    exact Rule.not_tightAt_of_contradiction (hdnf r hr) hempty (htight r hr)
  rw [if_neg hcontradiction]
  obtain ⟨u, parts, hu, hp, hexpresses⟩ := Program.exists_assemble hrules o.settings
  obtain ⟨solution, hsolution, hexact⟩ := hsolver _ hp
  obtain ⟨feasible, readings, hverdict, hdecode, hanswers⟩ :=
    Solution.exists_answers hu hexpresses hp hexact context
  refine ⟨_, ?_, hanswers⟩
  rw [hp, Outcome.ok_bind, hsolution, Outcome.ok_bind, hverdict, Outcome.ok_bind, hdecode]
  rfl

end Solver

end RuleAudit
