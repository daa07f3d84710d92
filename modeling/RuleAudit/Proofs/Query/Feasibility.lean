import RuleAudit.Proofs.Query.Answer

/-!
# Verdicts on feasibility

A query answers for normal forms, by a shortcut or by a solver (`Oracle.exists_solve`). Its answer
is right for the expressions that the rules were given as (`Feasibility.Decides.isRight`), if the
solver is exact on the program of the rules. An expression may use variables that its normal form
has lost, so the assignment of an answer does not mention all variables: every extension of it
will do.

A rule that is tight at a valuation is true there, and without strict clauses the converse holds.
So a feasible answer is right without further conditions, an infeasible one only says that no
valuation is tight for all rules, and the two agree when no clause is strict.
-/

namespace RuleAudit

/-! ### Tight rules are true -/

/-- The boundary is left out. -/
def Clause.isStrict : Clause Rat → Bool
  | linear c => c.relation.isStrict
  | _ => false

theorem Clause.eval_exact_of_margin {eps : Rat} (heps : 0 < eps) {c : Clause Rat} {v : Valuation}
    (h : c.eval (.margin eps) v = true) : c.eval .exact v = true := by
  cases c with
  | linear c => exact Comparison.exact_of_margin heps h
  | membership c => exact h
  | foreign d => exact h

theorem Clause.eval_margin_eq_exact (eps : Rat) {c : Clause Rat} (hc : c.isStrict = false)
    (v : Valuation) : c.eval (.margin eps) v = c.eval .exact v := by
  cases c with
  | linear c => exact Comparison.margin_eq_exact eps hc _ _
  | membership c => rfl
  | foreign d => rfl

namespace Rule

variable {r : Rule Rat} {d : Dnf Rat} {settings : Settings Rat} {v w : Valuation}

/-- A rule is true wherever it is tight. -/
theorem TightAt.eval (h : r.TightAt settings v) : r.expr.eval .exact v = true := by
  obtain ⟨d, hd, htrue⟩ := h
  obtain ⟨term, hterm, hall⟩ := Dnf.eval_eq_true.mp htrue
  rw [← r.eval_dnf hd]
  refine Dnf.eval_eq_true.mpr ⟨term, hterm, fun c hc => ?_⟩
  exact Clause.eval_exact_of_margin settings.epsilon.pos (hall c hc)

/-- Without strict clauses, a rule is tight wherever it is true. -/
theorem tightAt_of_eval (hd : r.dnf = .ok d) (hstrict : ∀ c ∈ r.clauses, c.isStrict = false)
    (h : r.expr.eval .exact v = true) : r.TightAt settings v := by
  rw [← r.eval_dnf hd] at h
  obtain ⟨term, hterm, hall⟩ := Dnf.eval_eq_true.mp h
  refine (tightAt_iff hd).mpr (Dnf.eval_eq_true.mpr ⟨term, hterm, fun c hc => ?_⟩)
  have hmem : c ∈ r.clauses := by
    rw [clauses_eq hd]
    exact List.mem_flatten.mpr ⟨term, hterm, hc⟩
  rw [Clause.eval_margin_eq_exact _ (hstrict c hmem)]
  exact hall c hc

end Rule

/-! ### Right answers -/

/-- The assignment has the values that were read off a point, and maybe more. -/
def Assignment.Extends (a : Assignment Rat) (readings : List (String × Reading Rat)) : Prop :=
  ∀ e ∈ readings, Assoc.get? e.1 a = some e.2.toDatum

/-- What the expressions of rules use. -/
def usesOf (rules : List (Rule Rat)) : List (String × VarKind) :=
  rules.flatMap (·.expr.uses)

/-- An answer is right for the expressions of rules. -/
structure Feasibility.IsRight (f : Feasibility Rat) (rules : List (Rule Rat))
    (settings : Settings Rat) : Prop where
  /-- All extensions of a feasible assignment to what the expressions use satisfy all of them. -/
  sound : f.feasible = true → ∀ a : Assignment Rat, a.Extends f.assignment →
    ∀ r ∈ rules, a.Suits r.expr.uses → r.expr.holds a 0 = .ok true
  /-- When infeasible, nothing in the box is tight for all rules. -/
  refuted : f.feasible = false → ∀ v : Valuation, v.InBox settings (numericVars rules) →
    ¬ ∀ r ∈ rules, r.TightAt settings v
  /-- Without strict clauses, feasible is to have a valuation in the box that satisfies all
  expressions; each of them takes the values of its own variables. -/
  exact : (∀ r ∈ rules, ∀ c ∈ r.clauses, c.isStrict = false) →
    (f.feasible = true ↔ ∃ v : Valuation, v.InBox settings (namesOf .numeric (usesOf rules)) ∧
      ∀ r ∈ rules, r.expr.holds (v.assignment r.expr.uses) 0 = .ok true)
  /-- When the expressions agree on the kinds of all variables, one assignment serves them all. -/
  exact_of_agrees : (∀ r ∈ rules, ∀ c ∈ r.clauses, c.isStrict = false) →
    (∃ kinds, Agrees kinds (usesOf rules)) →
    (f.feasible = true ↔ ∃ a : Assignment Rat,
      a.valuation.InBox settings (namesOf .numeric (usesOf rules)) ∧
        ∀ r ∈ rules, r.expr.holds a 0 = .ok true)

/-- An answer is right for the normal forms of rules. -/
structure Feasibility.Decides (f : Feasibility Rat) (rules : List (Rule Rat))
    (settings : Settings Rat) : Prop where
  tight : f.feasible = true → ∃ v : Valuation, (∀ n, |v.number n| ≤ settings.bound n) ∧
    ∀ r ∈ rules, r.TightAt settings v
  extend : f.feasible = true → ∀ a : Assignment Rat, a.Extends f.assignment →
    ∀ r ∈ rules, r.TightAt settings a.valuation
  refuted : f.feasible = false → ∀ v : Valuation, v.InBox settings (numericVars rules) →
    ¬ ∀ r ∈ rules, r.TightAt settings v

/-! ### From normal forms to expressions -/

section Expressions

variable {rules : List (Rule Rat)} {r : Rule Rat} {settings : Settings Rat}

/-- The numeric variables of the normal forms are among those of the expressions. -/
theorem numericVars_subset (hrules : KindConsistent rules) :
    numericVars rules ⊆ namesOf .numeric (usesOf rules) := by
  intro n hn
  rw [numericVars, mem_namesOf, List.flatMap_assoc] at hn
  obtain ⟨r, hr, hmem⟩ := List.mem_flatMap.mp hn
  obtain ⟨d, hd, -⟩ := hrules.exists_dnf hr
  rw [r.clauses_eq hd] at hmem
  exact mem_namesOf.mpr (List.mem_flatMap.mpr ⟨r, hr, r.uses_dnf_subset hd hmem⟩)

/-- On an assignment that suits it, an expression holds when it is true of the valuation. -/
theorem Rule.holds_of_eval (hrules : KindConsistent rules) (hr : r ∈ rules) {a : Assignment Rat}
    (ha : a.Suits r.expr.uses) (h : r.expr.eval .exact a.valuation = true) :
    r.expr.holds a 0 = .ok true := by
  obtain ⟨d, hd, hproper⟩ := hrules.exists_dnf hr
  rw [Expr.holds_eq_eval (r.isProper hd hproper) ha]
  exact congrArg Except.ok h

/-- The values that a valuation gives to variables of a rule satisfy its expression when the
valuation does. -/
theorem Rule.holds_of_get? (hrules : KindConsistent rules) (hr : r ∈ rules) {a : Assignment Rat}
    {v : Valuation} (ha : ∀ u ∈ r.expr.uses, Assoc.get? u.1 a = some (v.datum u.1 u.2))
    (h : r.expr.eval .exact v = true) : r.expr.holds a 0 = .ok true := by
  refine Rule.holds_of_eval hrules hr (Valuation.suits_of_get? ha) ?_
  rw [Expr.eval_agree _ (Valuation.agreesOn_of_get? ha), h]

theorem Rule.exists_agrees_of_kindConsistent (hrules : KindConsistent rules) (hr : r ∈ rules) :
    ∃ kinds, Agrees kinds r.expr.uses := by
  obtain ⟨kinds, hkinds⟩ := hrules
  obtain ⟨d, hd, hwithin⟩ := hkinds r hr
  exact r.exists_agrees hd hwithin

namespace Feasibility.Decides

variable {f : Feasibility Rat}

/-- Without strict clauses, an answer that is right for normal forms misses nothing in the box. -/
theorem feasible_of_eval (hrules : KindConsistent rules) (hf : f.Decides rules settings)
    (hstrict : ∀ r ∈ rules, ∀ c ∈ r.clauses, c.isStrict = false) {v : Valuation}
    (hbox : v.InBox settings (namesOf .numeric (usesOf rules)))
    (hv : ∀ r ∈ rules, r.expr.eval .exact v = true) : f.feasible = true := by
  by_contra hinfeasible
  refine hf.refuted (Bool.eq_false_iff.mpr hinfeasible) v
    (fun n hn => hbox n (numericVars_subset hrules hn)) fun r hr => ?_
  obtain ⟨d, hd, -⟩ := hrules.exists_dnf hr
  exact Rule.tightAt_of_eval hd (hstrict r hr) (hv r hr)

/-- An answer that is right for normal forms is right for expressions. -/
theorem isRight (hrules : KindConsistent rules) (hf : f.Decides rules settings) :
    f.IsRight rules settings where
  sound hfeasible a ha r hr hsuits :=
    Rule.holds_of_eval hrules hr hsuits (hf.extend hfeasible a ha r hr).eval
  refuted := hf.refuted
  exact hstrict := by
    constructor
    · intro hfeasible
      obtain ⟨v, hbox, htight⟩ := hf.tight hfeasible
      refine ⟨v, fun n _ => hbox n, fun r hr => ?_⟩
      obtain ⟨kinds, hkinds⟩ := Rule.exists_agrees_of_kindConsistent hrules hr
      exact Rule.holds_of_get? hrules hr (Valuation.get?_assignment hkinds) (htight r hr).eval
    · rintro ⟨v, hbox, hholds⟩
      refine hf.feasible_of_eval hrules hstrict hbox fun r hr => ?_
      obtain ⟨kinds, hkinds⟩ := Rule.exists_agrees_of_kindConsistent hrules hr
      have hagree := Valuation.agreesOn_of_get? (Valuation.get?_assignment (v := v) hkinds)
      rw [← Expr.eval_agree _ hagree]
      exact Expr.eval_of_holds (hholds r hr)
  exact_of_agrees hstrict := by
    rintro ⟨kinds, hkinds⟩
    constructor
    · intro hfeasible
      obtain ⟨v, hbox, htight⟩ := hf.tight hfeasible
      have hget := Valuation.get?_assignment (v := v) hkinds
      -- one list of values will do, since no name is asked for with two kinds
      refine ⟨v.assignment (usesOf rules), fun n hn => ?_, fun r hr => ?_⟩
      · have hnumber : (v.assignment (usesOf rules)).valuation.number n = v.number n :=
          Valuation.agreesOn_of_get? hget _ (mem_namesOf.mp hn)
        rw [hnumber]
        exact hbox n
      · refine Rule.holds_of_get? hrules hr (fun u hu => hget u ?_) (htight r hr).eval
        exact List.mem_flatMap.mpr ⟨r, hr, hu⟩
    · rintro ⟨a, hbox, hholds⟩
      exact hf.feasible_of_eval hrules hstrict hbox fun r hr => Expr.eval_of_holds (hholds r hr)

end Feasibility.Decides

end Expressions

/-! ### The solver's answer -/

section Solver

variable {rules : List (Rule Rat)} {settings : Settings Rat}

/-- The datum of a reading is the value that was read. -/
theorem Valuation.toDatum_reading (v : Valuation) (u : String × VarKind) :
    (v.reading u).toDatum = v.datum u.1 u.2 := by
  obtain ⟨n, kind⟩ := u
  cases kind with
  | numeric => rfl
  | categorical => rw [reading, datum]; dsimp only; cases v.label n <;> rfl

/-- An answer decides whether rules can hold together, if their labels stay apart. -/
theorem Feasibility.Answers.decides {f : Feasibility Rat} (hf : f.Answers rules settings)
    (hapart : LabelsApart rules) : f.Decides rules settings where
  tight hfeasible := by
    obtain ⟨v, hv, -⟩ := hf.sound hfeasible
    exact ⟨v, hv.inBox, hv.tight⟩
  extend hfeasible a ha r hr := by
    obtain ⟨v, hv, -, hreadings⟩ := hf.sound hfeasible
    -- the clauses of the rule only use variables that were read off
    refine (hv.tight r hr).agree (Valuation.agreesOn_of_get? fun u hu => ?_)
    have hmem : u ∈ (rules.flatMap Rule.clauses).flatMap Clause.uses := by
      rw [List.flatMap_assoc]
      exact List.mem_flatMap.mpr ⟨r, hr, hu⟩
    rw [← v.toDatum_reading]
    exact ha _ (Assoc.mem_of_get? (hreadings u hmem))
  refuted hinfeasible := hf.refuted hinfeasible hapart

/-- With a solver that is exact on the program of rules, the answer is right for normal forms. -/
theorem Oracle.exists_solve (o : Oracle Rat) (hrules : KindConsistent rules)
    (hnames : ∀ p, Program.ofRules rules o.settings = .ok p → (p.vars.map (·.name)).Nodup)
    (hsolver : ∀ p, Program.ofRules rules o.settings = .ok p → o.solver.ExactOn o.settings p)
    (context : String) : ∃ f, o.solve rules context = .ok f ∧ f.Decides rules o.settings := by
  obtain ⟨u, parts, -, hp, -⟩ := Program.exists_assemble hrules o.settings
  obtain ⟨f, hf, hanswers⟩ := o.exists_answer hrules hsolver context
  exact ⟨f, hf, hanswers.decides (Program.labelsApart_of_nodup_names hp (hnames _ hp))⟩

end Solver

/-- **Verdicts are right on expressions.** For rules that agree on the kind of every variable,
with decision variables of different names and a solver that is exact on their program, the query
has an answer. If feasible, every extension of its assignment satisfies all expressions; if not,
nothing in the box is tight for all rules; and without strict clauses it is feasible exactly when
something in the box satisfies all expressions. -/
theorem Oracle.exists_check_isRight (o : Oracle Rat) (s : RuleSet Rat)
    (hrules : KindConsistent s.rules)
    (hnames : ∀ p, Program.ofRules s.rules o.settings = .ok p → (p.vars.map (·.name)).Nodup)
    (hsolver : ∀ p, Program.ofRules s.rules o.settings = .ok p →
      o.solver.ExactOn o.settings p) :
    ∃ f, o.check s = .ok f ∧ f.IsRight s.rules o.settings := by
  obtain ⟨f, hf, hdecides⟩ := o.exists_solve hrules hnames hsolver "checking feasibility"
  exact ⟨f, hf, hdecides.isRight hrules⟩

/-- An expression whose normal form has lost a variable, with a strict clause and a label: the
answer of a solver that knows a feasible point is right. -/
theorem Oracle.exists_check_isRight_lost_variable :
    let far : Clause Rat := .linear (.canonical [(⟨"x", by decide⟩, 1)] .gt 3)
    let red : Clause Rat := .membership (.ofLabels ⟨"c", by decide⟩ ["red"] false)
    let lost : Clause Rat := .linear (.canonical [(⟨"y", by decide⟩, 1)] .le 0)
    let r : Rule Rat :=
      ⟨"r", .and [.or [.atom far, .atom red], .or [.atom lost, .const (.bool true)]], none,
        by decide, by simp, none⟩
    let s : RuleSet Rat := ⟨[r], by simp⟩
    let solver : Solver Rat := fun _ _ => .ok
      { status := .feasible
        point := [("num[x]", 4), ("cat[c=red]", 0), ("cat[c]*", 1), ("sel[0:r#0]", 1),
          ("sel[0:r#1]", 0)]
        detail := "OPTIMAL" }
    KindConsistent s.rules ∧ ∃ settings p, Settings.default = .ok settings ∧
      Program.ofRules s.rules settings = .ok p ∧ (p.vars.map (·.name)).Nodup ∧
      solver.ExactOn settings p ∧
      ∃ f, Oracle.check ⟨solver, settings⟩ s = .ok f ∧ f.IsRight s.rules settings := by
  intro far red lost r s solver
  have hkinds : KindConsistent s.rules := by decide +kernel
  have hsettings : (Settings.default (K := Rat)).toOption.any (fun settings =>
      (Program.ofRules s.rules settings).toOption.any fun p =>
        decide (p.vars.map (·.name)).Nodup && (solver settings p).toOption.any fun solution =>
          solution.status == .feasible && decide (p.Feasible solution.point)) = true := by
    decide +kernel
  obtain ⟨settings, hdefault, hprogram⟩ := Outcome.exists_of_any_toOption hsettings
  obtain ⟨p, hp, hall⟩ := Outcome.exists_of_any_toOption hprogram
  rw [Bool.and_eq_true] at hall
  obtain ⟨hnames, hsolution⟩ := hall
  have hexact : solver.ExactOn settings p := by
    obtain ⟨solution, hsolution, hfeasible⟩ := Outcome.exists_of_any_toOption hsolution
    rw [Bool.and_eq_true, beq_iff_eq] at hfeasible
    exact ⟨solution, hsolution, .inl ⟨hfeasible.1, of_decide_eq_true hfeasible.2⟩⟩
  refine ⟨hkinds, settings, p, hdefault, hp, of_decide_eq_true hnames, hexact, ?_⟩
  refine Oracle.exists_check_isRight ⟨solver, settings⟩ s hkinds (fun q hq => ?_) fun q hq => ?_
  · obtain rfl := Except.ok.inj (hp.symm.trans hq)
    exact of_decide_eq_true hnames
  · obtain rfl := Except.ok.inj (hp.symm.trans hq)
    exact hexact

end RuleAudit
