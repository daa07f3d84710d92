import RuleAudit.Proofs.Dnf.Clausewise

/-!
# Partial evaluation keeps the meaning

With no slack, every clause that values are plugged into keeps its truth value, whether it is
decided, keeps some of its variables, or was constant before. So the result holds on an assignment
exactly when the normal form holds on the assignment with the values written over it
(`Dnf.exists_substitute_holdsOn_iff`). No variable that has a value is left, and a reduced form
without variables is one of the two markers.
-/

namespace RuleAudit

/-! ### Values written over an assignment -/

namespace Assignment

variable {a b : Assignment Rat} {uses : List (String × VarKind)}

section Behind

variable (hfree : ∀ u ∈ uses, Assoc.get? u.1 b = none)

include hfree

theorem isNumericOn_of_append (h : (b ++ a).IsNumericOn uses) : a.IsNumericOn uses := by
  intro n hn x hx
  refine h n hn x ?_
  rwa [Assoc.get?_append_of_none (hfree _ hn)]

theorem covers_of_append (h : (b ++ a).Covers uses) : a.Covers uses := by
  intro u hu
  obtain ⟨x, hx⟩ := h u hu
  rw [Assoc.get?_append_of_none (hfree u hu)] at hx
  exact ⟨x, hx⟩

/-- Variables without a value in front have the values behind. -/
theorem agreesOn_append : (b ++ a).valuation.AgreesOn a.valuation uses := by
  rintro ⟨n, kind⟩ hu
  have hget : Assoc.get? n (b ++ a) = Assoc.get? n a :=
    Assoc.get?_append_of_none (hfree _ hu) a
  cases kind with
  | numeric => simp only [valuation, value, hget]
  | categorical => simp only [valuation, hget]

end Behind

end Assignment

/-! ### Truth without slack -/

namespace Clause

variable {c : Clause Rat} {values : Assignment Rat} {v : Valuation}

/-- A clause that the values of a valuation are plugged into keeps its truth value there. -/
theorem eval_plugged {out : Clause Rat ⊕ Bool} (h : c.substitute values 0 = .ok out)
    (hv : v.Matches values c.uses) :
    (c.plugged values 0).elim (eval .exact v) id = c.eval .exact v := by
  rw [plugged_eq h]
  rcases substitute_cases h with ⟨-, -, rfl⟩ | ⟨l, rhs, rfl, hrhs, -, rfl⟩ |
    ⟨l, rhs, rfl, hrhs, hterms, rfl⟩ | ⟨m, d, rfl, hd, rfl⟩
  · exact eval_settle c v
  · -- what is left has moved as much to the right side as was on the left one
    rw [Sum.elim_inl, eval_settle]
    exact Comparison.exact_congr (LinearClause.residue_eq hrhs hv)
  · have hbalance := LinearClause.residue_eq hrhs hv
    have hzero : (l.leftover values rhs).sumAt v = 0 := by
      rw [LinearClause.sumAt, hterms]
      rfl
    rw [hzero, add_zero] at hbalance
    rw [Sum.elim_inr, Sum.elim_inr, id]
    refine Comparison.exact_congr ?_
    rw [hbalance, add_zero]
  · have hlabel : v.label m.subject = some d.label := hv _ (List.mem_singleton_self _) d hd
    rw [Sum.elim_inr, Sum.elim_inr, id, eval, MembershipClause.lists, hlabel]

end Clause

namespace Dnf

variable {d d' : Dnf Rat} {values : Assignment Rat} {tol : Rat}

theorem within_exists_holds {a : Assignment Rat} (hd : d.Within Clause.IsProper)
    (hnumeric : a.IsNumericOn (d.flatten.flatMap Clause.uses))
    (hcovers : a.Covers (d.flatten.flatMap Clause.uses)) :
    d.Within fun c => ∃ b, c.holds a tol = .ok b := by
  intro term hterm c hc
  have huses := uses_clause_subset hterm hc
  exact Clause.exists_holds_of_covers (hd term hterm c hc) (hnumeric.mono huses)
    (hcovers.mono huses)

/-- Plugging in without slack keeps the truth value wherever the values are the right ones. -/
theorem eval_exact_substitute {v : Valuation} (hd : d.Within Clause.IsProper)
    (hnumeric : values.IsNumericOn (d.flatten.flatMap Clause.uses))
    (hv : v.Matches values (d.flatten.flatMap Clause.uses))
    (h : d.substitute values 0 = .ok d') : d'.eval .exact v = d.eval .exact v := by
  rw [substitute_eq_rewrite hd hnumeric] at h
  obtain rfl := Except.ok.inj h
  refine eval_rewrite ?_
  intro term hterm c hc
  have huses := uses_clause_subset hterm hc
  obtain ⟨out, hout⟩ : ∃ out, c.substitute values 0 = .ok out :=
    Clause.exists_substitute (hd term hterm c hc) (hnumeric.mono huses)
  exact Clause.eval_plugged hout (hv.mono huses)

/-- A reduced form without variables is one of the two markers. -/
theorem IsReduced.eq_falsum_or_eq_verum (h : d.IsReduced)
    (hd : d.Within fun c => c.IsProper ∧ c.uses = []) : d = falsum ∨ d = verum := by
  have hconstant : ∀ c : Clause Rat, c.IsProper → c.uses = [] → c.constant? ≠ none := by
    intro c hproper huses
    cases c with
    | linear l =>
      rw [Clause.uses, List.map_eq_nil_iff, LinearClause.vars, List.map_eq_nil_iff] at huses
      rw [Clause.constant?, huses]
      exact Option.some_ne_none _
    | membership m => cases huses
    | foreign d => cases hproper
  rcases h.eq_verum_or with hverum | hterms
  · exact .inr hverum
  · left
    refine List.eq_nil_iff_forall_not_mem.mpr ?_
    intro term hterm
    obtain ⟨c, hc⟩ := List.exists_mem_of_ne_nil term (hterms term hterm)
    obtain ⟨hproper, huses⟩ := hd term hterm c hc
    exact hconstant c hproper huses (h.constant?_eq_none hterm hc)

end Dnf

/-- **Partial evaluation keeps the meaning.** Values that can be read can be plugged into a normal
form of clauses. When they are no nulls of categorical variables, the result holds on an assignment
exactly when the normal form holds on it with the values written over it. No clause of the result
is about a variable that has a value, and with values for all variables the result is one of the two
markers. -/
theorem Dnf.exists_substitute_holdsOn_iff {d : Dnf Rat} {values : Assignment Rat}
    (hd : d.Within Clause.IsProper) (hnumeric : values.IsNumericOn (d.flatten.flatMap Clause.uses))
    (hnull : ∀ u ∈ d.flatten.flatMap Clause.uses, u.2 = .categorical →
      Assoc.get? u.1 values ≠ some .null) :
    ∃ d', d.substitute values 0 = .ok d' ∧
      (∀ a : Assignment Rat, (values ++ a).IsNumericOn (d.flatten.flatMap Clause.uses) →
        (values ++ a).Covers (d.flatten.flatMap Clause.uses) →
        (d'.HoldsOn a ↔ d.HoldsOn (values ++ a))) ∧
      (d'.Within fun c => ∀ n ∈ c.vars, Assoc.get? n values = none) ∧
      (values.Covers (d.flatten.flatMap Clause.uses) → d' = falsum ∨ d' = verum) := by
  obtain ⟨d', hd'⟩ : ∃ d', d.substitute values 0 = .ok d' := exists_substitute hd hnumeric
  have hproper := isProper_of_substitute hd'
  have hfree : ∀ u ∈ d'.flatten.flatMap Clause.uses, Assoc.get? u.1 values = none :=
    fun u hu => (uses_of_substitute hd' u hu).2
  have huses : d'.flatten.flatMap Clause.uses ⊆ d.flatten.flatMap Clause.uses :=
    fun u hu => (uses_of_substitute hd' u hu).1
  refine ⟨d', hd', ?_, ?_, ?_⟩
  · intro a hover hcovers
    have hholds : d'.Within fun c => ∃ b, c.holds a 0 = .ok b := within_exists_holds hproper
      (Assignment.isNumericOn_of_append hfree (hover.mono huses))
      (Assignment.covers_of_append hfree (hcovers.mono huses))
    have hmatches : (values ++ a).valuation.Matches values (d.flatten.flatMap Clause.uses) :=
      Assignment.matches_of_get? (fun _ _ _ hx => Assoc.get?_append_of_some hx a) hnumeric hnull
    calc d'.HoldsOn a
        ↔ d'.eval .exact a.valuation = true := holdsOn_iff_eval_of_holds hholds
      _ ↔ d'.eval .exact (values ++ a).valuation = true := by
        rw [eval_agree .exact (Assignment.agreesOn_append hfree)]
      _ ↔ d.eval .exact (values ++ a).valuation = true := by
        rw [eval_exact_substitute hd hnumeric hmatches hd']
      _ ↔ d.HoldsOn (values ++ a) :=
        (holdsOn_iff_eval_of_holds (within_exists_holds hd hover hcovers)).symm
  · intro term hterm c hc n hn
    obtain ⟨kind, hu⟩ := Clause.mem_vars_iff.mp hn
    exact hfree _ (uses_clause_subset hterm hc hu)
  · intro hcovers
    refine (isReduced_substitute hd').eq_falsum_or_eq_verum ?_
    intro term hterm c hc
    refine ⟨hproper term hterm c hc, List.eq_nil_iff_forall_not_mem.mpr ?_⟩
    intro u hu
    have hmem := uses_clause_subset hterm hc hu
    obtain ⟨x, hx⟩ := hcovers u (huses hmem)
    rw [hfree u hmem] at hx
    cases hx

/-- A number is plugged into a sum and written over another one; a second number is a label. -/
theorem Dnf.exists_substitute_holdsOn_iff_sum :
    let sum : Clause Rat :=
      .linear (.canonical [(⟨"x", by decide⟩, 2), (⟨"y", by decide⟩, 1)] .le 5)
    let seven : Clause Rat := .membership (.ofLabels ⟨"code", by decide⟩ ["7"] false)
    let high : Clause Rat := .linear (.canonical [(⟨"x", by decide⟩, 1)] .ge 3)
    let d : Dnf Rat := [[sum, seven], [high]]
    let values : Assignment Rat := [("x", .int 1), ("code", .int 7)]
    let a : Assignment Rat := [("x", .int 9), ("y", .real (5 / 2))]
    d.Within Clause.IsProper ∧ values.IsNumericOn (d.flatten.flatMap Clause.uses) ∧
      (values ++ a).IsNumericOn (d.flatten.flatMap Clause.uses) ∧
      (values ++ a).Covers (d.flatten.flatMap Clause.uses) ∧
      ∃ d', d.substitute values 0 = .ok d' ∧ d'.length = 1 ∧
        (d'.HoldsOn a ↔ d.HoldsOn (values ++ a)) ∧
        d'.Within fun c => ∀ n ∈ c.vars, Assoc.get? n values = none := by
  intro sum seven high d values a
  have huses : d.flatten.flatMap Clause.uses =
      [("x", .numeric), ("y", .numeric), ("code", .categorical), ("x", .numeric)] := by
    decide +kernel
  have hd : d.Within Clause.IsProper := by
    have hfirst : ∀ c ∈ [sum, seven], c.IsProper :=
      List.forall_mem_cons.mpr ⟨trivial, List.forall_mem_singleton.mpr trivial⟩
    have hsecond : ∀ c ∈ [high], c.IsProper := List.forall_mem_singleton.mpr trivial
    exact List.forall_mem_cons.mpr ⟨hfirst, List.forall_mem_singleton.mpr hsecond⟩
  have hover : (values ++ a).IsNumericOn (d.flatten.flatMap Clause.uses) := by
    rw [huses]
    intro n hn x hx
    have hnames : n = "x" ∨ n = "y" := by simpa [or_comm, or_left_comm] using hn
    rcases hnames with rfl | rfl
    · obtain rfl : Datum.int 1 = x := Option.some.inj hx
      exact ⟨1, rfl⟩
    · obtain rfl : Datum.real (5 / 2) = x := Option.some.inj hx
      exact ⟨5 / 2, rfl⟩
  have hnumeric : values.IsNumericOn (d.flatten.flatMap Clause.uses) := by
    intro n hn x hx
    exact hover n hn x (Assoc.get?_append_of_some hx a)
  have hcovers : (values ++ a).Covers (d.flatten.flatMap Clause.uses) := by
    rw [huses]
    intro u hu
    have hall : [("x", VarKind.numeric), ("y", .numeric), ("code", .categorical),
        ("x", .numeric)].all (fun u => (Assoc.get? u.1 (values ++ a)).isSome) = true := by
      decide +kernel
    exact Option.isSome_iff_exists.mp (List.all_eq_true.mp hall u hu)
  have hnull : ∀ u ∈ d.flatten.flatMap Clause.uses, u.2 = .categorical →
      Assoc.get? u.1 values ≠ some .null := by
    rw [huses]
    intro u hu hkind hvalue
    obtain rfl : ("code", VarKind.categorical) = u := by
      simp only [List.mem_cons, List.not_mem_nil, or_false] at hu
      rcases hu with rfl | rfl | rfl | rfl
      · cases hkind
      · cases hkind
      · rfl
      · cases hkind
    cases Option.some.inj hvalue
  obtain ⟨d', hd', hiff, hfree, -⟩ := Dnf.exists_substitute_holdsOn_iff hd hnumeric hnull
  have hlength : (d.substitute values 0).toOption.any (·.length = 1) = true := by decide +kernel
  rw [hd'] at hlength
  exact ⟨hd, hnumeric, hover, hcovers, d', hd', of_decide_eq_true hlength, hiff a hover hcovers,
    hfree⟩

end RuleAudit
