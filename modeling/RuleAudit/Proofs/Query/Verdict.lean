import RuleAudit.Proofs.Lexicon
import RuleAudit.Proofs.Query.Feasibility

/-!
# Verdicts of an exact solver

A query for rules that fit a lexicon always has a verdict when the solver is exact. If the labels of
the lexicon stay apart, rules are feasible exactly when some valuation in the box is tight for all
of them (`Oracle.verdict_iff`). Rules about labels only are tight where they are true.
-/

namespace RuleAudit

/-- The solver is exact on every program. -/
def Solver.Exact (solver : Solver Rat) (settings : Settings Rat) : Prop :=
  ∀ p, solver.ExactOn settings p

/-- Rules whose decision variables have different names fit a lexicon whose labels stay apart. -/
theorem KindConsistent.exists_apart {rules : List (Rule Rat)} {settings : Settings Rat}
    (h : KindConsistent rules)
    (hnames : ∀ p, Program.ofRules rules settings = .ok p → (p.vars.map (·.name)).Nodup) :
    ∃ L : Lexicon, L.Apart ∧ (∀ r ∈ rules, r.Fits L) ∧ L.mentions = Mentioned rules := by
  obtain ⟨L, hfits, hmentions⟩ := h.exists_lexicon
  obtain ⟨u, parts, -, hp, -⟩ := Program.exists_assemble h settings
  refine ⟨L, ?_, hfits, hmentions⟩
  rw [Lexicon.Apart, hmentions]
  exact Program.labelsApart_of_nodup_names hp (hnames _ hp)

namespace Oracle

variable (o : Oracle Rat) {L : Lexicon} {rules : List (Rule Rat)}

/-- Whether rules are feasible; no when the query fails. -/
def verdict (rules : List (Rule Rat)) (context : String) : Bool :=
  (o.feasible rules context).toOption.getD false

variable {o}

theorem verdict_of_isFeasible {s : RuleSet Rat} {b : Bool} (h : o.isFeasible s = .ok b) :
    o.verdict s.rules "checking feasibility" = b := by
  have hfeasible : o.feasible s.rules "checking feasibility" = .ok b := h
  rw [verdict, hfeasible]
  rfl

/-- Feasible rules agree on the kind of every variable: either no clause is left, or there is a
program for them. -/
theorem kindConsistent_of_isFeasible {s : RuleSet Rat} (h : o.isFeasible s = .ok true) :
    KindConsistent s.rules := by
  obtain ⟨f, hf, hfeasible⟩ := Outcome.bind_eq_ok.mp h
  obtain ⟨always, halways, hf⟩ := Outcome.bind_eq_ok.mp hf
  cases always with
  | true => exact Rule.kindConsistent_of_isTautology (Outcome.eq_ok_of_allM halways)
  | false =>
    obtain ⟨never, -, hf⟩ := Outcome.bind_eq_ok.mp hf
    cases never with
    | true =>
      obtain rfl := Except.ok.inj hf
      cases hfeasible
    | false =>
      obtain ⟨p, hp, -⟩ := Outcome.bind_eq_ok.mp hf
      obtain ⟨u, -, hu, -⟩ := Program.ofRules_eq_ok.mp hp
      exact Usage.exists_ofRules_iff.mp ⟨u, hu⟩

variable (hsolver : o.solver.Exact o.settings)

include hsolver

theorem feasible_eq (h : ∀ r ∈ rules, r.Fits L) (context : String) :
    o.feasible rules context = .ok (o.verdict rules context) := by
  obtain ⟨f, hf, -⟩ := o.exists_answer (kindConsistent_of_fits h) (fun p _ => hsolver p) context
  rw [verdict, feasible, hf]
  rfl

/-- Rules that are found feasible are tight at some valuation. -/
theorem satisfiable_of_verdict (hrules : KindConsistent rules) {context : String}
    (h : o.verdict rules context = true) : Satisfiable o.settings rules := by
  obtain ⟨f, hf, hanswers⟩ := o.exists_answer hrules (fun p _ => hsolver p) context
  rw [verdict, feasible, hf] at h
  obtain ⟨v, hv, -⟩ := hanswers.sound h
  exact ⟨v, hv⟩

/-- Rules are feasible when some valuation in the box is tight for all of them. -/
theorem verdict_iff (hL : L.Apart) (h : ∀ r ∈ rules, r.Fits L) (context : String) :
    o.verdict rules context = true ↔ Satisfiable o.settings rules := by
  refine ⟨satisfiable_of_verdict hsolver (kindConsistent_of_fits h), ?_⟩
  obtain ⟨f, hf, hanswers⟩ :=
    o.exists_answer (kindConsistent_of_fits h) (fun p _ => hsolver p) context
  have hverdict : o.verdict rules context = f.feasible := by
    rw [verdict, feasible, hf]
    rfl
  rw [hverdict]
  rintro ⟨v, hv⟩
  by_contra hinfeasible
  exact hanswers.refuted (Bool.eq_false_iff.mpr hinfeasible) (labelsApart_of_fits hL h) v
    (fun n _ => hv.inBox n) hv.tight

theorem verdict_eq_false_iff (hL : L.Apart) (h : ∀ r ∈ rules, r.Fits L) (context : String) :
    o.verdict rules context = false ↔ ¬ Satisfiable o.settings rules := by
  rw [← verdict_iff hsolver hL h context, Bool.not_eq_true]

open Classical in
theorem feasible_eq_decide (hL : L.Apart) (h : ∀ r ∈ rules, r.Fits L) (context : String) :
    o.feasible rules context = .ok (decide (Satisfiable o.settings rules)) := by
  rw [feasible_eq hsolver h, Except.ok.injEq, Bool.eq_iff_iff, verdict_iff hsolver hL h,
    decide_eq_true_eq]

theorem isFeasible_eq {s : RuleSet Rat} (h : ∀ r ∈ s.rules, r.Fits L) :
    o.isFeasible s = .ok (o.verdict s.rules "checking feasibility") :=
  feasible_eq hsolver h _

theorem isFeasible_iff (hL : L.Apart) {s : RuleSet Rat} (h : ∀ r ∈ s.rules, r.Fits L) :
    o.isFeasible s = .ok true ↔ Satisfiable o.settings s.rules := by
  rw [isFeasible_eq hsolver h, Except.ok.injEq, verdict_iff hsolver hL h]

end Oracle

/-! ### Rules about labels -/

namespace Rule

variable {r : Rule Rat} {d : Dnf Rat} {settings : Settings Rat} {v : Valuation}

/-- All clauses of the normal form are about labels. -/
def IsCategorical (r : Rule Rat) : Prop :=
  ∀ c ∈ r.clauses, c.IsMembership

instance (r : Rule Rat) : Decidable r.IsCategorical :=
  inferInstanceAs (Decidable (∀ c ∈ r.clauses, c.IsMembership))

theorem IsCategorical.within (h : r.IsCategorical) (hd : r.dnf = .ok d) :
    d.Within Clause.IsMembership := by
  rw [IsCategorical, clauses_eq hd] at h
  exact Dnf.within_iff_flatten.mpr h

/-- A rule about labels is tight where it is true. -/
theorem IsCategorical.tightAt_iff_eval (h : r.IsCategorical) (hd : r.dnf = .ok d) :
    r.TightAt settings v ↔ r.expr.eval .exact v = true := by
  refine ⟨TightAt.eval, tightAt_of_eval hd fun c hc => ?_⟩
  have hmembership := h c hc
  cases c with
  | membership c => rfl
  | linear c => cases hmembership
  | foreign d => cases hmembership

end Rule

end RuleAudit
