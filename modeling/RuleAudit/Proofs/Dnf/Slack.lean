import RuleAudit.Proofs.Dnf.Polarity
import RuleAudit.Proofs.Rule

/-!
# Normal forms under slack

A relation that includes the boundary accepts some slack and a strict one none, and the opposite of
either is of the other sort. So where a clause fails with slack, its opposite holds with slack, but
between a bound and its slack both hold. An expression that is true therefore has a term of its
normal form that holds, and one that is false a term of the normal form of its negation; the
converse needs an expression without negations.

The normal forms are followed through evaluation itself, which stops at the first argument that
decides, so nothing is asked of the variables that were not looked at.
-/

namespace RuleAudit

namespace Dnf

/-! ### Terms of clauses with a property -/

section Meets

variable {K : Type} [Scalar K] {P : Clause K → Prop} {d : Dnf K} {parts : List (Dnf K)}
  (hP : ∀ c d, (c == d) = true → (P c ↔ P d))

include hP

/-- Reducing an open form keeps what is said of some term. -/
theorem IsOpen.meets_reduce (h : d.IsOpen) : d.reduce.Meets P ↔ d.Meets P := by
  refine Dnf.meets_reduce hP fun term hterm c hc b hb => ?_
  rw [h term hterm c hc] at hb
  cases hb

theorem meets_conj (h : ∀ d ∈ parts, d.IsReduced) :
    (conj parts).Meets P ↔ ∀ d ∈ parts, d.Meets P := by
  rw [conj, (isOpen_foldl_cross h).meets_reduce hP, meets_foldl_cross hP, and_iff_right meets_verum]

theorem meets_disj (h : ∀ d ∈ parts, d.IsReduced) :
    (disj parts).Meets P ↔ ∃ d ∈ parts, d.Meets P := by
  rw [disj, (isOpen_flatten h).meets_reduce hP, meets_flatten]

end Meets

/-- Some term of a normal form has all its clauses true on an assignment, with some slack. -/
def HoldsWithin (d : Dnf Rat) (a : Assignment Rat) (tol : Rat) : Prop :=
  d.Meets fun c => (Expr.atom c).holds a tol = .ok true

instance (d : Dnf Rat) (a : Assignment Rat) (tol : Rat) : Decidable (d.HoldsWithin a tol) :=
  decidable_of_iff (∃ term ∈ d, ∀ c ∈ term, ((Expr.atom c).holds a tol).toOption = some true) <| by
    refine exists_congr fun term => and_congr_right fun _ => forall₂_congr fun c _ => ?_
    exact ⟨Outcome.eq_ok_of_toOption, congrArg Except.toOption⟩

end Dnf

/-! ### Clauses with slack -/

/-- A relation that fails with slack has an opposite that holds with slack. -/
theorem Relation.exists_negate_holds {r : Relation} {x y tol : Rat} (htol : 0 ≤ tol)
    (h : r.holds x y tol = false) : ∃ s ∈ r.negate, s.holds x y tol = true := by
  cases r
  case le =>
    have hlt : y + tol < x := not_le.mp (of_decide_eq_false h)
    exact ⟨.gt, List.mem_cons_self, decide_eq_true (by linarith)⟩
  case lt =>
    have hle : y ≤ x := not_lt.mp (of_decide_eq_false h)
    exact ⟨.ge, List.mem_cons_self, decide_eq_true (by linarith)⟩
  case eq =>
    have hlt : tol < Scalar.abs (x - y) := not_le.mp (of_decide_eq_false h)
    have hne : x ≠ y := by
      rintro rfl
      rw [Rational.abs_eq, sub_self, abs_zero] at hlt
      exact absurd htol (not_le.mpr hlt)
    rcases lt_or_gt_of_ne hne with hxy | hxy
    · exact ⟨.lt, List.mem_cons_self, decide_eq_true hxy⟩
    · exact ⟨.gt, List.mem_cons_of_mem _ List.mem_cons_self, decide_eq_true hxy⟩
  case ge =>
    have hlt : x < y - tol := not_le.mp (of_decide_eq_false h)
    exact ⟨.lt, List.mem_cons_self, decide_eq_true (by linarith)⟩
  case gt =>
    have hle : x ≤ y := not_lt.mp (of_decide_eq_false h)
    exact ⟨.le, List.mem_cons_self, decide_eq_true (by linarith)⟩

theorem LinearClause.sum_restrict (c : LinearClause Rat) (r : Relation) (rhs : Rat)
    (a : Assignment Rat) : (c.restrict (fun _ => true) r rhs).sum a = c.sum a := by
  rw [sum, sum, terms_restrict]

namespace MembershipClause

theorem accepts_negate (c : MembershipClause) (d : Datum Rat) :
    c.negate.accepts d = !c.accepts d := by
  cases d <;> simp [accepts, negate]

theorem accepts_of_labels_eq_nil {c : MembershipClause} (h : c.labels = []) (d : Datum Rat) :
    c.accepts d = c.negated := by
  cases d <;> simp [accepts, h]

end MembershipClause

namespace Clause

/-- A linear clause has a variable on its left side. -/
def HasVariable {K : Type} [Scalar K] : Clause K → Prop
  | linear c => c.terms ≠ []
  | _ => True

/-- A clause can be evaluated, and is constant only if its labels make it so. -/
def IsDecided (a : Assignment Rat) (tol : Rat) (c : Clause Rat) : Prop :=
  c.HasVariable ∧ ∃ b, c.holds a tol = .ok b

variable {a : Assignment Rat} {tol : Rat} {c : Clause Rat}

/-- Equal clauses hold alike. -/
theorem holds_congr {c d : Clause Rat} (h : (c == d) = true) :
    c.holds a tol = .ok true ↔ d.holds a tol = .ok true := by
  cases c <;> cases d <;> first | cases h | skip
  case linear.linear c d =>
    have hparts : (c.terms == d.terms && c.relation == d.relation && c.rhs == d.rhs) = true := h
    simp only [Bool.and_eq_true] at hparts
    obtain ⟨⟨hterms, hrelation⟩, hrhs⟩ := hparts
    rw [holds, holds, LinearClause.sum, LinearClause.sum, eq_of_beq hterms, eq_of_beq hrelation,
      eq_of_beq hrhs]
  case membership.membership c d =>
    have hcd : (c == d) = true := h
    rw [eq_of_beq hcd]
  case foreign.foreign => exact iff_of_false (by simp [holds]) (by simp [holds])

/-- With slack, too, a constant clause without labels has the truth value it is decided with. -/
theorem holds_of_constant? (hc : c.HasVariable) {b truth : Bool} (hconst : c.constant? = some b)
    (h : c.holds a tol = .ok truth) : truth = b := by
  cases c with
  | linear c =>
    rw [constant?, if_neg (by simpa [HasVariable] using hc)] at hconst
    cases hconst
  | membership c =>
    rw [constant?] at hconst
    split at hconst
    · next hlabels =>
      obtain ⟨d, hd, h⟩ := Outcome.bind_eq_ok.mp h
      obtain rfl : c.accepts d = truth := Except.ok.inj h
      rw [MembershipClause.accepts_of_labels_eq_nil (List.isEmpty_iff.mp hlabels)]
      exact Option.some.inj hconst
    · cases hconst
  | foreign d => cases hconst

/-- Where a clause fails with slack, its opposite holds with slack. -/
theorem opposite_holdsWithin (htol : 0 ≤ tol) (h : c.holds a tol = .ok false) :
    c.opposite.HoldsWithin a tol := by
  cases c with
  | linear c =>
    obtain ⟨x, hx, h⟩ := Outcome.bind_eq_ok.mp h
    obtain ⟨r, hr, hholds⟩ := Relation.exists_negate_holds htol (Except.ok.inj h)
    refine ⟨_, List.mem_map_of_mem hr, List.forall_mem_singleton.mpr ?_⟩
    rw [Expr.holds, holds, c.sum_restrict, hx]
    exact congrArg _ hholds
  | membership c =>
    obtain ⟨d, hd, h⟩ := Outcome.bind_eq_ok.mp h
    have haccepts : c.accepts d = false := Except.ok.inj h
    refine ⟨_, List.mem_singleton_self _, List.forall_mem_singleton.mpr ?_⟩
    refine Outcome.bind_eq_ok.mpr ⟨d, hd, ?_⟩
    rw [c.accepts_negate, haccepts]
    rfl
  | foreign d => cases h

theorem IsDecided.opposite (h : c.IsDecided a tol) : c.opposite.Within (IsDecided a tol) := by
  obtain ⟨hvar, b, hb⟩ := h
  intro term hterm o ho
  cases c with
  | linear c =>
    obtain ⟨r, -, rfl⟩ := List.mem_map.mp hterm
    obtain rfl := List.mem_singleton.mp ho
    obtain ⟨x, hx, -⟩ := Outcome.bind_eq_ok.mp hb
    refine ⟨?_, _, by rw [holds, c.sum_restrict, hx]; rfl⟩
    rw [HasVariable, c.terms_restrict]
    exact hvar
  | membership c =>
    obtain rfl := List.mem_singleton.mp hterm
    obtain rfl := List.mem_singleton.mp ho
    obtain ⟨d, hd, -⟩ := Outcome.bind_eq_ok.mp hb
    exact ⟨trivial, _, Outcome.bind_eq_ok.mpr ⟨d, hd, rfl⟩⟩
  | foreign d => cases hterm

end Clause

namespace Dnf

variable {a : Assignment Rat} {tol : Rat} {d : Dnf Rat} {parts : List (Dnf Rat)}

/-- Deciding clauses that have been evaluated changes nothing. -/
theorem holdsWithin_reduce (h : d.Within (Clause.IsDecided a tol)) :
    d.reduce.HoldsWithin a tol ↔ d.HoldsWithin a tol := by
  refine meets_reduce (fun _ _ => Clause.holds_congr) fun term hterm c hc b hconst => ?_
  obtain ⟨hvar, truth, htruth⟩ := h term hterm c hc
  obtain rfl := Clause.holds_of_constant? hvar hconst htruth
  rw [Expr.holds, htruth]
  exact ⟨Except.ok.inj, congrArg _⟩

theorem holdsWithin_conj (h : ∀ d ∈ parts, d.IsReduced) :
    (conj parts).HoldsWithin a tol ↔ ∀ d ∈ parts, d.HoldsWithin a tol :=
  meets_conj (fun _ _ => Clause.holds_congr) h

theorem holdsWithin_disj (h : ∀ d ∈ parts, d.IsReduced) :
    (disj parts).HoldsWithin a tol ↔ ∃ d ∈ parts, d.HoldsWithin a tol :=
  meets_disj (fun _ _ => Clause.holds_congr) h

end Dnf

/-! ### Expressions and their parts -/

namespace Expr

section Parts

variable {K : Type} [Scalar K]

/-- Induction over an expression, with what is known of all arguments of a connective. -/
@[elab_as_elim]
theorem inductionOn {motive : Expr K → Prop} (e : Expr K) (atom : ∀ c, motive (.atom c))
    (const : ∀ d, motive (.const d))
    (and : ∀ args, (∀ e ∈ args, motive e) → motive (.and args))
    (or : ∀ args, (∀ e ∈ args, motive e) → motive (.or args))
    (not : ∀ e, motive e → motive (.not e))
    (ifThen : ∀ e f, motive e → motive f → motive (.ifThen e f))
    (foreign : ∀ d, motive (.foreign d)) : motive e :=
  @Expr.rec K _ motive (fun es => ∀ e ∈ es, motive e) atom const and or not ifThen foreign
    (List.forall_mem_nil _) (fun _ _ he hes => List.forall_mem_cons.mpr ⟨he, hes⟩) e

variable {es : List (Expr K)} {a : Assignment K} {tol : K}

theorem forall_of_holdsAll (h : holdsAll es a tol = .ok true) :
    ∀ e ∈ es, e.holds a tol = .ok true := by
  induction es with
  | nil => exact List.forall_mem_nil _
  | cons e es ih =>
    obtain ⟨b, hb, h⟩ := Outcome.bind_eq_ok.mp h
    cases b with
    | true => exact List.forall_mem_cons.mpr ⟨hb, ih h⟩
    | false => cases h

theorem exists_of_holdsAll (h : holdsAll es a tol = .ok false) :
    ∃ e ∈ es, e.holds a tol = .ok false := by
  induction es with
  | nil => cases h
  | cons e es ih =>
    obtain ⟨b, hb, h⟩ := Outcome.bind_eq_ok.mp h
    cases b with
    | true =>
      obtain ⟨f, hf, hfalse⟩ := ih h
      exact ⟨f, List.mem_cons_of_mem e hf, hfalse⟩
    | false => exact ⟨e, List.mem_cons_self, hb⟩

theorem exists_of_holdsAny (h : holdsAny es a tol = .ok true) :
    ∃ e ∈ es, e.holds a tol = .ok true := by
  induction es with
  | nil => cases h
  | cons e es ih =>
    obtain ⟨b, hb, h⟩ := Outcome.bind_eq_ok.mp h
    cases b with
    | true => exact ⟨e, List.mem_cons_self, hb⟩
    | false =>
      obtain ⟨f, hf, htrue⟩ := ih h
      exact ⟨f, List.mem_cons_of_mem e hf, htrue⟩

theorem forall_of_holdsAny (h : holdsAny es a tol = .ok false) :
    ∀ e ∈ es, e.holds a tol = .ok false := by
  induction es with
  | nil => exact List.forall_mem_nil _
  | cons e es ih =>
    obtain ⟨b, hb, h⟩ := Outcome.bind_eq_ok.mp h
    cases b with
    | true => cases h
    | false => exact List.forall_mem_cons.mpr ⟨hb, ih h⟩

/-- An expression of clauses, constants, conjunctions and disjunctions. -/
inductive IsMonotone : Expr K → Prop
  | atom (c : Clause K) : IsMonotone (.atom c)
  | const (d : Datum K) : IsMonotone (.const d)
  | and {args : List (Expr K)} (h : ∀ e ∈ args, IsMonotone e) : IsMonotone (.and args)
  | or {args : List (Expr K)} (h : ∀ e ∈ args, IsMonotone e) : IsMonotone (.or args)

/-- Every linear clause of an expression has a variable. -/
def HasVariables (e : Expr K) : Prop :=
  ∀ c, .inl c ∈ e.leaves → c.HasVariable

theorem hasVariables_of_leavesEach (h : ∀ c, .inl c ∈ leavesEach es → c.HasVariable) :
    ∀ e ∈ es, e.HasVariables := fun e he c hc =>
  h c (by rw [leavesEach_eq]; exact List.mem_flatMap.mpr ⟨e, he, hc⟩)

end Parts

/-! ### Expressions and their forms -/

variable {a : Assignment Rat} {tol : Rat}

theorem holdsWithin_conj_formEach {es : List (Expr Rat)} {positive : Bool} :
    (Dnf.conj (formEach es positive)).HoldsWithin a tol ↔
      ∀ e ∈ es, (e.form positive).HoldsWithin a tol := by
  rw [formEach_eq, Dnf.holdsWithin_conj (List.forall_mem_map.mpr fun e _ => e.form_isReduced _),
    List.forall_mem_map]

theorem holdsWithin_disj_formEach {es : List (Expr Rat)} {positive : Bool} :
    (Dnf.disj (formEach es positive)).HoldsWithin a tol ↔
      ∃ e ∈ es, (e.form positive).HoldsWithin a tol := by
  rw [formEach_eq, Dnf.holdsWithin_disj (List.forall_mem_map.mpr fun e _ => e.form_isReduced _)]
  simp only [List.mem_map, exists_exists_and_eq_and]

/-- With slack, the form of the polarity that an expression evaluates to holds. -/
theorem form_holdsWithin (htol : 0 ≤ tol) (e : Expr Rat) :
    ∀ b, e.HasVariables → e.holds a tol = .ok b → (e.form b).HoldsWithin a tol := by
  induction e using inductionOn with
  | atom c =>
    intro b hvars h
    have hdecided : c.IsDecided a tol := ⟨hvars c List.mem_cons_self, b, h⟩
    rw [form]
    cases b with
    | true =>
      have hsingle := Dnf.within_singleton.mpr hdecided
      exact (Dnf.holdsWithin_reduce hsingle).mpr (Dnf.meets_singleton.mpr h)
    | false =>
      exact (Dnf.holdsWithin_reduce hdecided.opposite).mpr (Clause.opposite_holdsWithin htol h)
  | const d =>
    intro b _ h
    obtain rfl := Except.ok.inj h
    rw [form, beq_self_eq_true, if_pos rfl]
    exact Dnf.meets_verum
  | and args ih =>
    intro b hvars h
    have hargs := hasVariables_of_leavesEach hvars
    cases b with
    | true =>
      have hall := forall_of_holdsAll h
      exact holdsWithin_conj_formEach.mpr fun e he => ih e he true (hargs e he) (hall e he)
    | false =>
      obtain ⟨e, he, hfalse⟩ := exists_of_holdsAll h
      exact holdsWithin_disj_formEach.mpr ⟨e, he, ih e he false (hargs e he) hfalse⟩
  | or args ih =>
    intro b hvars h
    have hargs := hasVariables_of_leavesEach hvars
    cases b with
    | true =>
      obtain ⟨e, he, htrue⟩ := exists_of_holdsAny h
      exact holdsWithin_disj_formEach.mpr ⟨e, he, ih e he true (hargs e he) htrue⟩
    | false =>
      have hall := forall_of_holdsAny h
      exact holdsWithin_conj_formEach.mpr fun e he => ih e he false (hargs e he) (hall e he)
  | not e ih =>
    intro b hvars h
    obtain ⟨truth, htruth, h⟩ := Outcome.bind_eq_ok.mp h
    obtain rfl : (!truth) = b := Except.ok.inj h
    rw [form, Bool.not_not]
    exact ih truth hvars htruth
  | ifThen e f he hf =>
    intro b hvars h
    have hparts : ∀ d ∈ [e.form (!b), f.form b], d.IsReduced :=
      List.forall_mem_cons.mpr
        ⟨e.form_isReduced _, List.forall_mem_singleton.mpr (f.form_isReduced _)⟩
    have he := fun b => he b fun c hc => hvars c (List.mem_append_left _ hc)
    have hf := fun b => hf b fun c hc => hvars c (List.mem_append_right _ hc)
    obtain ⟨premise, hpremise, h⟩ := Outcome.bind_eq_ok.mp h
    rw [form]
    cases premise with
    | true =>
      cases b with
      | true => exact (Dnf.holdsWithin_disj hparts).mpr ⟨_, by simp, hf true h⟩
      | false =>
        refine (Dnf.holdsWithin_conj hparts).mpr ?_
        exact List.forall_mem_cons.mpr
          ⟨he true hpremise, List.forall_mem_singleton.mpr (hf false h)⟩
    | false =>
      -- a premise that is false makes the expression true
      obtain rfl := Except.ok.inj h
      exact (Dnf.holdsWithin_disj hparts).mpr ⟨_, List.mem_cons_self, he false hpremise⟩
  | foreign d =>
    intro b _ h
    cases h

/-- Without negations, the form of an expression that is false does not hold. -/
theorem IsMonotone.not_form_holdsWithin {e : Expr Rat} (he : e.IsMonotone) :
    e.HasVariables → e.holds a tol = .ok false → ¬ (e.form true).HoldsWithin a tol := by
  induction he with
  | atom c =>
    intro hvars h
    have hdecided : c.IsDecided a tol := ⟨hvars c List.mem_cons_self, false, h⟩
    rw [form, if_pos rfl, Dnf.holdsWithin_reduce (Dnf.within_singleton.mpr hdecided),
      Dnf.HoldsWithin, Dnf.meets_singleton, h]
    simp
  | const d =>
    intro _ h
    have htruth : d.truth = false := Except.ok.inj h
    rw [form, htruth]
    exact Dnf.not_meets_falsum
  | and _ ih =>
    intro hvars h hform
    obtain ⟨e, he, hfalse⟩ := exists_of_holdsAll h
    have hholds := holdsWithin_conj_formEach.mp hform e he
    exact ih e he (hasVariables_of_leavesEach hvars e he) hfalse hholds
  | or _ ih =>
    intro hvars h hform
    obtain ⟨e, he, hholds⟩ := holdsWithin_disj_formEach.mp hform
    exact ih e he (hasVariables_of_leavesEach hvars e he) (forall_of_holdsAny h e he) hholds

/-- **Slack never makes an expression accept more than its normal form.** Let an expression have a
normal form and a variable in each of its linear clauses, and let values be compared with some
slack. On every assignment on which the expression is true, some term of its normal form has all its
clauses true, and on every one on which it is false, some term of the normal form of its negation;
without negations and conditionals, some term of the normal form has all its clauses true only where
the expression is true. The expression is one or the other wherever all its variables have values
that can be read. -/
theorem slack_within_normal_forms {e : Expr Rat} {rule : Datum Rat} {d : Dnf Rat} {tol : Rat}
    (hd : e.toDnf rule = .ok d) (hvars : e.HasVariables) (htol : 0 ≤ tol) (a : Assignment Rat) :
    ∃ n, e.negate rule = .ok n ∧
      (e.holds a tol = .ok true → d.HoldsWithin a tol) ∧
      (e.holds a tol = .ok false → n.HoldsWithin a tol) ∧
      (e.IsMonotone → ∀ b, e.holds a tol = .ok b → (d.HoldsWithin a tol ↔ b = true)) ∧
      (a.IsNumericOn e.uses → a.Covers e.uses → ∃ b, e.holds a tol = .ok b) := by
  obtain rfl := eq_form_of_toDnf hd
  refine ⟨e.form false, negate_eq_of_toDnf hd, form_holdsWithin htol e true hvars,
    form_holdsWithin htol e false hvars, fun he b hb => ?_, fun hnumeric hcovers => ?_⟩
  · cases b with
    | true => exact iff_of_true (form_holdsWithin htol e true hvars hb) rfl
    | false => exact iff_of_false (he.not_form_holdsWithin hvars hb) Bool.false_ne_true
  · exact ⟨_, holds_eq_eval_of_covers (isProper_of_toDnf hd) hnumeric hcovers⟩

/-- Half a unit below a bound, with a slack of one: the bound holds and so does the normal form of
its negation, which is false. -/
theorem slack_within_normal_forms_bound :
    let high : LinearClause Rat := .canonical [(⟨"x", by decide⟩, 1)] .ge 3
    let bound : Expr Rat := .atom (.linear high)
    let a : Assignment Rat := [("x", .real (5 / 2))]
    bound.not.HasVariables ∧ (0 : Rat) ≤ 1 ∧ bound.not.holds a 1 = .ok false ∧
      (∃ d n, bound.not.toDnf .null = .ok d ∧ d.HoldsWithin a 1 ∧
        bound.not.negate .null = .ok n ∧ n.HoldsWithin a 1) ∧
      ∃ d, bound.toDnf .null = .ok d ∧ bound.IsMonotone ∧ (d.HoldsWithin a 1 ↔ true = true) := by
  intro high bound a
  have hterms : high.terms ≠ [] := by decide +kernel
  have hvars : bound.not.HasVariables := by
    intro c hc
    obtain rfl := Sum.inl.inj (List.mem_singleton.mp hc)
    exact hterms
  have hone : (0 : Rat) ≤ 1 := by decide
  have hholds : bound.holds a 1 = .ok true := Outcome.eq_ok_of_toOption (by decide +kernel)
  have hnot : bound.not.holds a 1 = .ok false := by rw [holds, hholds]; rfl
  have hsome : (bound.not.toDnf .null).toOption.any (fun d =>
      decide (d.HoldsWithin a 1)) = true := by
    decide +kernel
  obtain ⟨d, hd, hwithin⟩ := Outcome.exists_of_any_toOption hsome
  have hsome' : (bound.toDnf .null).toOption.any (fun _ => true) = true := by decide +kernel
  obtain ⟨d', hd', -⟩ := Outcome.exists_of_any_toOption hsome'
  obtain ⟨n, hn, -, hfalse, -⟩ := slack_within_normal_forms hd hvars hone a
  obtain ⟨_, -, -, -, hmonotone, -⟩ := slack_within_normal_forms hd' hvars hone a
  exact ⟨hvars, hone, hnot, ⟨d, n, hd, of_decide_eq_true hwithin, hn, hfalse hnot⟩,
    d', hd', .atom _, hmonotone (.atom _) true hholds⟩

end Expr

end RuleAudit
