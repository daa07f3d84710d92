import RuleAudit.Proofs.Dnf.ReadOff
import RuleAudit.Proofs.Dnf.Substitute

/-!
# Normal forms are canonical

A clause that a reduced form keeps depends on its variables: it is true on one assignment and false
on another (`Clause.varies_of_constant?`). So a reduced form of clauses is one of the two markers or
has only terms that say something, each clause and each term once (`Dnf.IsReduced.isCanonical`).
Reducing, normalising and plugging values in all end with such a form.
-/

namespace RuleAudit

/-! ### Clauses that depend on their variables -/

/-- Every relation is met by some number and missed by another. -/
theorem Comparison.exists_exact_eq (r : Relation) (y : Rat) (b : Bool) :
    ∃ x, exact r x y = b := by
  have hlt : y < y + 1 := lt_add_one y
  have hgt : y - 1 < y := sub_one_lt y
  simp only [exact_eq]
  cases r <;> cases b
  case le.false => exact ⟨y + 1, decide_eq_false (not_le.mpr hlt)⟩
  case lt.true => exact ⟨y - 1, decide_eq_true hgt⟩
  case eq.false => exact ⟨y + 1, decide_eq_false hlt.ne'⟩
  case ge.false => exact ⟨y - 1, decide_eq_false (not_le.mpr hgt)⟩
  case gt.true => exact ⟨y + 1, decide_eq_true hlt⟩
  all_goals exact ⟨y, by simp⟩

/-- The left side of a clause with variables takes every value. -/
theorem LinearClause.exists_sumAt_eq {c : LinearClause Rat} (hc : c.terms ≠ []) (x : Rat) :
    ∃ v : Valuation, c.sumAt v = x := by
  obtain ⟨⟨n, q⟩, rest, hterms⟩ := List.exists_cons_of_ne_nil hc
  have hq : q ≠ 0 := by
    have hmem : (n, q) ∈ c.terms := hterms ▸ List.mem_cons_self
    exact ne_of_beq_false (c.nonzero _ hmem)
  have hrest : ∀ t ∈ rest, n ≠ t.1 := by
    have hascending := c.ascending
    rw [hterms] at hascending
    exact fun t ht => Std.ne_of_lt ((List.pairwise_cons.mp hascending).1 t ht)
  -- the first variable takes all of the value, and the others are zero
  let v : Valuation := ⟨fun m => if m = n then x / q else 0, fun _ => none⟩
  have hfirst : q * v.number n = x := by
    rw [show v.number n = x / q from if_pos rfl, mul_div_cancel₀ x hq]
  have hothers : (rest.map fun t => t.2 * v.number t.1).sum = 0 := by
    refine List.sum_eq_zero fun y hy => ?_
    obtain ⟨t, ht, rfl⟩ := List.mem_map.mp hy
    rw [show v.number t.1 = 0 from if_neg (hrest t ht).symm, mul_zero]
  exact ⟨v, by rw [sumAt, hterms, List.map_cons, List.sum_cons, hfirst, hothers, add_zero]⟩

namespace Clause

/-- A clause is true on some assignment and false on another. -/
def Varies (c : Clause Rat) : Prop :=
  ∀ b, ∃ a : Assignment Rat, c.holds a 0 = .ok b

variable {c : Clause Rat}

theorem exists_eval_eq (hc : c.IsProper) (h : c.constant? = none) (b : Bool) :
    ∃ v, c.eval .exact v = b := by
  cases c with
  | linear c =>
    have hterms : c.terms ≠ [] := by
      intro hnil
      rw [constant?, hnil] at h
      cases h
    obtain ⟨x, hx⟩ := Comparison.exists_exact_eq c.relation c.rhs b
    obtain ⟨v, rfl⟩ := LinearClause.exists_sumAt_eq hterms x
    exact ⟨v, hx⟩
  | membership c =>
    have hlabels : c.labels ≠ [] := by
      intro hnil
      rw [constant?, hnil] at h
      cases h
    obtain ⟨l, hl⟩ := List.exists_mem_of_ne_nil _ hlabels
    have hlists : ∀ inside : Bool, ∃ v : Valuation, c.lists v = inside := by
      rintro (_ | _)
      · exact ⟨⟨fun _ => 0, fun _ => none⟩, rfl⟩
      · exact ⟨⟨fun _ => 0, fun _ => some l⟩, List.contains_iff_mem.mpr hl⟩
    obtain ⟨v, hv⟩ := hlists (b != c.negated)
    exact ⟨v, by rw [eval, hv]; cases b <;> cases c.negated <;> rfl⟩
  | foreign d => cases hc

/-- A clause that is not constant depends on its variables. -/
theorem varies_of_constant? (hc : c.IsProper) (h : c.constant? = none) : c.Varies := by
  intro b
  obtain ⟨v, hv⟩ := exists_eval_eq hc h b
  obtain ⟨kinds, hkinds⟩ : ∃ kinds, Agrees kinds c.uses := by
    cases c with
    | linear c => exact ⟨fun _ => .numeric, List.forall_mem_map.mpr fun _ _ => rfl⟩
    | membership c => exact ⟨fun _ => .categorical, List.forall_mem_singleton.mpr rfl⟩
    | foreign d => cases hc
  have hvalues := Valuation.get?_assignment (v := v) hkinds
  obtain ⟨truth, htruth⟩ : ∃ truth, c.holds (v.assignment c.uses) 0 = .ok truth :=
    exists_holds hc (Valuation.suits_of_get? hvalues)
  refine ⟨v.assignment c.uses, ?_⟩
  rw [htruth, ← hv, ← eval_agree .exact (Valuation.agreesOn_of_get? hvalues), Comparison.exact,
    eval_of_holds htruth]

end Clause

/-! ### Canonical forms -/

namespace Dnf

/-- A marker, or terms of clauses that depend on their variables, without repetitions. -/
structure IsCanonical (d : Dnf Rat) : Prop where
  /-- Only the markers have no term or an empty one. -/
  shape : d = falsum ∨ d = verum ∨ d ≠ [] ∧ [] ∉ d
  /-- No clause is constant. -/
  varies : d.Within Clause.Varies
  /-- No clause is twice in a term. -/
  nodup_term : ∀ term ∈ d, term.Nodup
  /-- No term is there twice. -/
  nodup : d.Nodup

variable {d : Dnf Rat}

/-- A reduced form of clauses is canonical. -/
theorem IsReduced.isCanonical (h : d.IsReduced) (hd : d.Within Clause.IsProper) :
    d.IsCanonical where
  shape := by
    rcases eq_or_ne d falsum with hfalsum | hne
    · exact .inl hfalsum
    · refine .inr (h.eq_verum_or.imp_right fun hterms => ⟨hne, fun hnil => ?_⟩)
      exact hterms [] hnil rfl
  varies := fun term hterm c hc =>
    Clause.varies_of_constant? (hd term hterm c hc) (h.constant?_eq_none hterm hc)
  nodup_term := fun term hterm => (h.pairwise_term hterm).imp fun hne heq => by
    rw [heq, beq_self_eq_true] at hne
    cases hne
  nodup := by
    obtain ⟨given, rfl⟩ := h
    rw [reduce]
    split
    · exact List.nodup_singleton _
    · refine (pairwise_eraseDups _).imp fun hne heq => ?_
      rw [heq, beq_self_eq_true] at hne
      cases hne

/-- What is left of clauses that can be evaluated holds where they do. -/
theorem holdsOn_reduce {a : Assignment Rat} (h : d.Within fun c => ∃ b, c.holds a 0 = .ok b) :
    d.reduce.HoldsOn a ↔ d.HoldsOn a := by
  rw [holdsOn_iff_eval_of_holds h.reduce, holdsOn_iff_eval_of_holds h,
    eval_reduce (Comparison.exact_decides _ d)]

/-- **Normal forms are canonical.** Clauses in a disjunction can be reduced; the result is
canonical, it is reduced to itself, and it holds on an assignment on which the clauses can be
evaluated exactly when the disjunction does. The normal forms of an expression and of its negation
are canonical, and so is what is left of a normal form after plugging values in. -/
theorem canonical_forms :
    (∀ d : Dnf Rat, d.Within Clause.IsProper → ∃ r, d.reduceChecked = .ok r ∧ r.IsCanonical ∧
      r.reduceChecked = .ok r ∧
      ∀ a : Assignment Rat, (d.Within fun c => ∃ b, c.holds a 0 = .ok b) →
        (r.HoldsOn a ↔ d.HoldsOn a)) ∧
    (∀ (e : Expr Rat) (rule : Datum Rat) (d : Dnf Rat),
      e.toDnf rule = .ok d ∨ e.negate rule = .ok d → d.IsCanonical) ∧
    ∀ (d d' : Dnf Rat) (values : Assignment Rat) (tol : Rat),
      d.substitute values tol = .ok d' → d'.IsCanonical := by
  refine ⟨fun d hd => ?_, fun e rule d h => ?_, fun d d' values tol h => ?_⟩
  · have hreduced : d.reduce.IsReduced := ⟨d, rfl⟩
    have hchecked : ∀ f : Dnf Rat, f.Within Clause.IsProper → f.reduceChecked = .ok f.reduce := by
      intro f hf
      rw [reduceChecked, checkComparable_eq hf]
      rfl
    refine ⟨d.reduce, hchecked d hd, hreduced.isCanonical hd.reduce, ?_, fun a ha => ?_⟩
    · rw [hchecked _ hd.reduce, hreduced.reduce_eq]
    · exact holdsOn_reduce ha
  · have hform : e.HasForm d := h.elim Expr.hasForm_of_toDnf Expr.hasForm_of_negate
    exact hform.isReduced.isCanonical hform.within
  · exact (isReduced_substitute h).isCanonical (isProper_of_substitute h)

/-- Constants, repetitions and a false term next to a bound on `x`, and the negation of the bound at
a number for `x`. -/
theorem canonical_forms_bound :
    let never : Clause Rat := .linear (.canonical [] .gt 1)
    let always : Clause Rat := .membership (.ofLabels ⟨"c", by decide⟩ [] true)
    let low : Clause Rat := .linear (.canonical [(⟨"x", by decide⟩, 2)] .le 3)
    let high : Clause Rat := .linear (.canonical [(⟨"x", by decide⟩, 2)] .gt 3)
    let d : Dnf Rat := [[low, always], [never, high], [low, low]]
    let a : Assignment Rat := [("x", .int 1), ("c", .text "red")]
    d.Within Clause.IsProper ∧ (d.Within fun c => ∃ b, c.holds a 0 = .ok b) ∧
      (∃ r, d.reduceChecked = .ok r ∧ r.length = 1 ∧ r.IsCanonical ∧ r.reduceChecked = .ok r ∧
        (r.HoldsOn a ↔ d.HoldsOn a)) ∧
      (∃ n, (Expr.atom low).negate .null = .ok n ∧ n.length = 1 ∧ n.IsCanonical) ∧
      ∃ s, d.substitute [("x", .int 2)] 0 = .ok s ∧ s.length = 0 ∧ s.IsCanonical := by
  intro never always low high d a
  have hall : ∀ P : Clause Rat → Prop, P never → P always → P low → P high → d.Within P := by
    intro P hnever halways hlow hhigh term hterm c hc
    simp only [d, List.mem_cons, List.not_mem_nil, or_false] at hterm
    rcases hterm with rfl | rfl | rfl <;>
      simp only [List.mem_cons, List.not_mem_nil, or_false] at hc <;>
      rcases hc with rfl | rfl <;> assumption
  have hd : d.Within Clause.IsProper := hall _ trivial trivial trivial trivial
  have hlow : low.holds a 0 = .ok true := Outcome.eq_ok_of_toOption (by decide +kernel)
  have hhigh : high.holds a 0 = .ok false := Outcome.eq_ok_of_toOption (by decide +kernel)
  have ha : d.Within fun c => ∃ b, c.holds a 0 = .ok b :=
    hall _ ⟨false, rfl⟩ ⟨true, rfl⟩ ⟨true, hlow⟩ ⟨false, hhigh⟩
  obtain ⟨hreduce, hnormal, hsubstitute⟩ := canonical_forms
  obtain ⟨r, hr, hcanonical, hagain, hholds⟩ := hreduce d hd
  have hlength : d.reduceChecked.toOption.any (·.length = 1) = true := by decide +kernel
  rw [hr] at hlength
  have hnegate : ((Expr.atom low).negate .null).toOption.any (·.length = 1) = true := by
    decide +kernel
  obtain ⟨n, hn, hone⟩ := Outcome.exists_of_any_toOption hnegate
  have hplugged : (d.substitute [("x", .int 2)] 0).toOption.any (·.length = 0) = true := by
    decide +kernel
  obtain ⟨s, hs, hnone⟩ := Outcome.exists_of_any_toOption hplugged
  exact ⟨hd, ha, ⟨r, hr, of_decide_eq_true hlength, hcanonical, hagain, hholds a ha⟩,
    ⟨n, hn, of_decide_eq_true hone, hnormal _ _ _ (.inr hn)⟩,
    s, hs, of_decide_eq_true hnone, hsubstitute d s _ 0 hs⟩

end Dnf

end RuleAudit
