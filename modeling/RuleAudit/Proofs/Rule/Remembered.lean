import RuleAudit.Proofs.Dnf.ReadOff
import RuleAudit.Proofs.Dnf.Same
import RuleAudit.Rule.Bind

/-!
# Remembered normal forms

The normal form of a rule is worked out when it is first read, and remembered from then on. A rule
that is made from a normal form remembers it from the start, and a rule that is renamed hands over
what it remembers; the expression is looked at only when nothing is remembered. `Rule.Remembers`
follows a rule and its memory through any sequence of these steps.

At every step, what is remembered is the normal form of the rule
(`Rule.Remembers.empty_or_dnf`). When the clauses use every variable with one kind, this is the
normal form that the expression alone has, under whatever name. So a rule can be exchanged for one
that is made from its normal form, or for one with an equal expression, whatever these remember
(`Rule.Remembers.dnfFrom_eq_toDnf`).
-/

namespace RuleAudit

open Outcome

variable {K : Type} [Scalar K]

/-- Finite numbers can be negated. -/
theorem Clause.IsValid.negate_eq {c : Clause K} (hc : c.IsValid) : c.negate = .ok c.opposite := by
  cases c with
  | linear c => exact Clause.negate_linear hc.1 hc.2
  | membership c => rfl
  | foreign v => cases hc

/-! ### Steps -/

namespace Rule

/-- The normal form that is read, given the one that is remembered. -/
def dnfFrom (r : Rule K) (memory : Option (Dnf K)) : Except (Error K) (Dnf K) :=
  match memory with
  | some d => .ok d
  | none => r.expr.toDnf (.text r.name)

/-- The rule can come out of some sequence of steps with this memory. -/
inductive Remembers : Rule K → Option (Dnf K) → Prop
  | make {name : Datum K} {e : Expr K} {r : Rule K} (hr : Rule.make name e = .ok r) :
    Remembers r none
  | ofDnf {name : Datum K} {d : Dnf K} {r : Rule K} (hr : Rule.ofDnf name d = .ok r) :
    Remembers r (some d.reduce)
  | ofTree {name tree : Datum K} {r : Rule K} {d : Dnf K} (hr : Rule.ofTree name tree = .ok r)
    (hd : r.dnfFrom none = .ok d) : Remembers r (some d)
  | pin {var value : Datum K} {kind : Option VarKind} {r : Rule K}
    (hr : Rule.pin var value kind = .ok r) : Remembers r none
  | read {r : Rule K} {memory : Option (Dnf K)} {d : Dnf K} (h : Remembers r memory)
    (hd : r.dnfFrom memory = .ok d) : Remembers r (some d)
  | renamed {r q : Rule K} {memory : Option (Dnf K)} {name : Datum K} (h : Remembers r memory)
    (hq : r.renamed name = .ok q) : Remembers q memory
  | substitute {r q : Rule K} {memory : Option (Dnf K)} {values : Assignment K} {tol : K}
    {d rest : Dnf K} (h : Remembers r memory) (hd : r.dnfFrom memory = .ok d)
    (hrest : d.substitute values tol = .ok rest) (hq : Rule.ofDnf (.text r.name) rest = .ok q) :
    Remembers q (some rest.reduce)

variable {r q : Rule K} {memory : Option (Dnf K)} {d : Dnf K}

/-! ### What steps leave behind -/

/-- A rule that is made from an expression was given no normal form. -/
theorem normal?_of_make {name : Datum K} {e : Expr K} (h : Rule.make name e = .ok r) :
    r.normal? = none := by
  obtain ⟨n, -, h⟩ := bind_eq_ok.mp h
  obtain rfl := Except.ok.inj h
  rfl

theorem normal?_of_ofTree {name tree : Datum K} (h : Rule.ofTree name tree = .ok r) :
    r.normal? = none := by
  obtain ⟨e, -, h⟩ := bind_eq_ok.mp h
  obtain ⟨made, hmade, h⟩ := bind_eq_ok.mp h
  obtain ⟨d, -, h⟩ := bind_eq_ok.mp h
  obtain rfl := Except.ok.inj h
  exact normal?_of_make hmade

theorem normal?_of_pin {var value : Datum K} {kind : Option VarKind}
    (h : Rule.pin var value kind = .ok r) : r.normal? = none := by
  rw [Rule.pin] at h
  split at h
  · obtain ⟨c, -, h⟩ := bind_eq_ok.mp h
    exact normal?_of_make h
  · obtain ⟨c, -, h⟩ := bind_eq_ok.mp h
    exact normal?_of_make h

theorem dnf_of_ofDnf {name : Datum K} (h : Rule.ofDnf name d = .ok r) : r.dnf = .ok d.reduce := by
  obtain ⟨-, -, h⟩ := bind_eq_ok.mp h
  obtain ⟨n, -, h⟩ := bind_eq_ok.mp h
  obtain rfl := Except.ok.inj h
  rfl

/-- A name changes neither the expression nor what comes with it. -/
theorem of_renamed {name : Datum K} (h : r.renamed name = .ok q) :
    q.expr = r.expr ∧ q.normal? = r.normal? := by
  obtain ⟨n, -, h⟩ := bind_eq_ok.mp h
  obtain rfl := Except.ok.inj h
  exact ⟨rfl, rfl⟩

/-- The normal form of a rule does not depend on its name. -/
theorem dnf_of_renamed {name : Datum K} (h : r.renamed name = .ok q) (hd : r.dnf = .ok d) :
    q.dnf = .ok d := by
  obtain ⟨hexpr, hnormal⟩ := of_renamed h
  rw [dnf] at hd ⊢
  rw [hexpr, hnormal]
  split at hd
  · exact hd
  · exact Expr.toDnf_eq_ok hd _

namespace Remembers

/-- What is remembered is the normal form of the rule. Nothing is remembered only when the rule came
without a normal form. -/
theorem empty_or_dnf (h : r.Remembers memory) :
    memory = none ∧ r.normal? = none ∨ ∃ d, memory = some d ∧ r.dnf = .ok d := by
  induction h with
  | make hr => exact .inl ⟨rfl, normal?_of_make hr⟩
  | ofDnf hr => exact .inr ⟨_, rfl, dnf_of_ofDnf hr⟩
  | @ofTree _ _ r d hr hd =>
    have hdnf : r.dnf = .ok d := by
      rw [dnf, normal?_of_ofTree hr]
      exact hd
    exact .inr ⟨d, rfl, hdnf⟩
  | pin hr => exact .inl ⟨rfl, normal?_of_pin hr⟩
  | @read r memory d h hd ih =>
    refine .inr ⟨d, rfl, ?_⟩
    rcases ih with ⟨rfl, hnormal⟩ | ⟨kept, rfl, hkept⟩
    · rw [dnf, hnormal]
      exact hd
    · obtain rfl := Except.ok.inj hd
      exact hkept
  | renamed h hq ih =>
    rcases ih with ⟨rfl, hnormal⟩ | ⟨d, rfl, hd⟩
    · exact .inl ⟨rfl, (of_renamed hq).2.trans hnormal⟩
    · exact .inr ⟨d, rfl, dnf_of_renamed hq hd⟩
  | substitute h hd hrest hq ih => exact .inr ⟨_, rfl, dnf_of_ofDnf hq⟩

/-- Reading gives the normal form of the rule, with or without memory. -/
theorem dnfFrom_eq_dnf (h : r.Remembers memory) : r.dnfFrom memory = r.dnf := by
  rcases h.empty_or_dnf with ⟨rfl, hnormal⟩ | ⟨d, rfl, hd⟩
  · rw [dnf, hnormal]
    rfl
  · exact hd.symm

/-- A rule that is read from a tree remembers the normal form that it was checked with. -/
theorem of_ofTree {name tree : Datum K} (h : Rule.ofTree name tree = .ok r) :
    ∃ d, r.Remembers (some d) := by
  have hr := h
  obtain ⟨e, -, h⟩ := bind_eq_ok.mp h
  obtain ⟨made, hmade, h⟩ := bind_eq_ok.mp h
  obtain ⟨d, hd, h⟩ := bind_eq_ok.mp h
  obtain rfl := Except.ok.inj h
  rw [dnf, normal?_of_make hmade] at hd
  exact ⟨d, .ofTree hr hd⟩

/-- Plugging in values is one of the steps, or changes nothing. -/
theorem of_substitute {values : Assignment K} {tol : K} (h : r.Remembers memory)
    (hq : r.substitute values tol = .ok q) : ∃ memory', q.Remembers memory' := by
  obtain ⟨vars, -, hq⟩ := bind_eq_ok.mp hq
  split at hq
  · obtain ⟨d, hd, hq⟩ := bind_eq_ok.mp hq
    obtain ⟨rest, hrest, hq⟩ := bind_eq_ok.mp hq
    exact ⟨_, .substitute h (h.dnfFrom_eq_dnf.trans hd) hrest hq⟩
  · obtain rfl := Except.ok.inj hq
    exact ⟨memory, h⟩

end Remembers

/-! ### Rules of one kind for each variable -/

/-- The rule that is made from the normal form of a rule has it, too. -/
theorem exists_ofDnf_dnf (hd : r.dnf = .ok d) (hr : r.expr.IsProper) {name : String}
    (hname : ¬ Text.Blank name) : ∃ q, Rule.ofDnf (.text name) d = .ok q ∧ q.dnf = .ok d := by
  obtain ⟨q, hq, -, hqd, -⟩ := exists_ofDnf hname (within_isProper hd hr)
  rw [(isReduced hd).reduce_eq] at hqd
  exact ⟨q, hq, hqd⟩

/-- **What is remembered is what the expression is normalised to.** When the clauses of a rule use
every variable with one kind, reading its normal form is normalising its expression, whatever is
remembered, and can only fail when a number is infinite. A rule that is made from the normal form
has the same, and a rule with an equal expression has an equal one. -/
theorem Remembers.dnfFrom_eq_toDnf [Scalar.Lawful K] [Scalar.ExactZero K] {kinds : String → VarKind}
    (h : r.Remembers memory) (hr : r.expr.HasKinds kinds) :
    r.dnfFrom memory = r.dnf ∧ r.dnf = r.expr.toDnf (.text r.name) ∧
    (∀ label d, r.dnf = .ok d ↔ r.expr.toDnf label = .ok d) ∧
    ((∀ c, .inl c ∈ r.expr.leaves → c.IsValid) → ∃ d, r.dnf = .ok d) ∧
    ∀ d, r.dnf = .ok d →
      (∀ name, ¬ Text.Blank name → ∃ q, Rule.ofDnf (.text name) d = .ok q ∧
        ∀ memory', q.Remembers memory' → q.dnfFrom memory' = .ok d) ∧
      ∀ (q : Rule K) memory', q.Remembers memory' →
        (q.expr = r.expr → q.dnfFrom memory' = .ok d) ∧
        (r.expr == q.expr → ∃ d', q.dnfFrom memory' = .ok d' ∧ d == d') := by
  have hdnf := dnf_eq_toDnf hr
  have hlabel : ∀ label d, r.dnf = .ok d ↔ r.expr.toDnf label = .ok d := fun label d =>
    ⟨fun hd => Expr.toDnf_eq_ok (hdnf.symm.trans hd) label, dnf_of_toDnf⟩
  have hproper : r.expr.IsProper := fun leaf hleaf => by
    obtain ⟨c, rfl, hc⟩ := hr leaf hleaf
    exact ⟨c, rfl, hc.1⟩
  refine ⟨h.dnfFrom_eq_dnf, hdnf, hlabel, fun hvalid => ?_, fun d hd => ⟨fun name hname => ?_,
    fun q memory' hq => ⟨fun hsame => ?_, fun hsame => ?_⟩⟩⟩
  · have hforms := Expr.normal_forms_of_negates (.text r.name) hr fun c hc _ =>
      (hvalid c hc).negate_eq
    exact ⟨_, hdnf.trans hforms.1⟩
  · obtain ⟨q, hq, hqd⟩ := exists_ofDnf_dnf hd hproper hname
    exact ⟨q, hq, fun memory' hq' => hq'.dnfFrom_eq_dnf.trans hqd⟩
  · have hmade := (hlabel (.text q.name) d).mp hd
    rw [← hsame] at hmade
    exact hq.dnfFrom_eq_dnf.trans (dnf_of_toDnf hmade)
  · obtain ⟨d', hd', hbeq⟩ := Expr.exists_toDnf_of_same hsame ((hlabel (.text q.name) d).mp hd)
    exact ⟨d', hq.dnfFrom_eq_dnf.trans (dnf_of_toDnf hd'), hbeq⟩

/-- Two rules whose constants and zeros are written differently; one was read and then renamed, the
other was never read. -/
theorem Remembers.dnfFrom_eq_toDnf_spellings :
    let low (zero : Float) : Clause Float := .linear (.canonical [(⟨"x", by decide⟩, 1)] .le zero)
    let red : Clause Float := .membership (.ofLabels ⟨"c", by decide⟩ ["red"] false)
    let e (always : Datum Float) (zero : Float) : Expr Float :=
      .and [.const always, .ifThen (.atom red) (.atom (low zero))]
    ∃ (r q : Rule Float) (d : Dnf Float), r.name = "kept" ∧ r.expr = e (.int 1) 0 ∧
      q.expr = e (.bool true) (-0) ∧ r.Remembers (some d) ∧ q.Remembers none ∧
      r.dnf = r.expr.toDnf (.text "kept") ∧ d.length = 2 ∧
      ∃ d', q.dnfFrom none = .ok d' ∧ d == d' := by
  intro low red e
  have hname : ¬ Text.Blank "draft" := by
    simp [Text.Blank, Text.isBlank, Text.inRanges, Text.blankRanges]
  have hkept : ¬ Text.Blank "kept" := by
    simp [Text.Blank, Text.isBlank, Text.inRanges, Text.blankRanges]
  obtain ⟨draft, hdraft, hdraftName, hdraftExpr, -⟩ := exists_make (e (.int 1) 0) hname
  obtain ⟨r, hrenamed, hrname, hrexpr⟩ := draft.exists_renamed hkept
  obtain ⟨q, hq, -, hqexpr, -⟩ := exists_make (e (.bool true) (-0)) hname
  rw [hdraftExpr] at hrexpr
  have hsome : ((e (.int 1) 0).toDnf (.text "draft")).toOption.any (·.length = 2) = true := by
    decide +kernel
  obtain ⟨d, hd, hlen⟩ := Outcome.exists_of_any_toOption hsome
  rw [← hdraftExpr, ← hdraftName] at hd
  have hr : r.Remembers (some d) := .renamed (.read (.make hdraft) hd) hrenamed
  have hkinds : r.expr.HasKinds fun v => if v = "x" then .numeric else .categorical := by
    have hleaves : r.expr.leaves = [.inl red, .inl (low 0)] := by rw [hrexpr]; rfl
    rw [Expr.HasKinds, hleaves]
    refine List.forall_mem_cons.mpr ⟨⟨red, rfl, trivial, ?_⟩,
      List.forall_mem_singleton.mpr ⟨low 0, rfl, trivial, ?_⟩⟩ <;> unfold Agrees <;> decide +kernel
  have hsame : (r.expr == q.expr) = true := by
    rw [hrexpr, hqexpr]
    decide +kernel
  obtain ⟨hdnf, hmade, -, -, hforms⟩ := Remembers.dnfFrom_eq_toDnf hr hkinds
  exact ⟨r, q, d, hrname, hrexpr, hqexpr, hr, .make hq, hrname ▸ hmade, of_decide_eq_true hlen,
    ((hforms d hdnf.symm).2 q none (.make hq)).2 hsame⟩

end Rule

end RuleAudit
