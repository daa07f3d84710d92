import RuleAudit.Dnf.Substitute
import RuleAudit.Proofs.Clause.Form
import RuleAudit.Proofs.Dnf.Normalize
import RuleAudit.Proofs.Failure
import RuleAudit.Proofs.Tree.RoundTrip

/-!
# Sums that are too large

Every number that is given for a clause must be finite, but the clause keeps sums of them, and these
are not checked before the clause is made anew. So a sum that is too large is noticed only when the
clause is negated or a value is plugged in (`LinearClause.isValid_iff_totals`). With rationals, and
where no variable is given twice, there are no such sums.
-/

namespace RuleAudit

open Outcome

variable {K : Type} [Scalar K]

/-! ### Checks -/

/-- A check fails with an error that names the number. -/
theorem Quantity.failsOnly_check_infinite (q : Quantity) (x : K) (d : Datum K) :
    FailsOnly (fun e => Scalar.isFinite x = false ∧ e = .flaw (.infinite q d)) (q.check x d) :=
  failsOnly_ite (fun _ => failsOnly_ok x) fun h => failsOnly_error ⟨Bool.not_eq_true _ ▸ h, rfl⟩

namespace LinearClause

variable {c : LinearClause K}

/-- The error that names a coefficient of a clause that is not finite. -/
def IsInfinite (c : LinearClause K) (e : Error K) : Prop :=
  ∃ t ∈ c.terms, Scalar.isFinite t.2 = false ∧
    e = .flaw (.infinite (.coefficient t.1) (.real t.2))

/-- Making a clause anew fails for one of its coefficients or for the right side. -/
theorem failsOnly_rebuild_infinite (c : LinearClause K) (keep : String → Bool) (r : Relation)
    (rhs : K) : FailsOnly (fun e => c.IsInfinite e ∨
      Scalar.isFinite rhs = false ∧ e = .flaw (.infinite .rightSide (.real rhs)))
        (c.rebuild keep r rhs) := by
  refine (failsOnly_forIn fun t ht => ?_).bind fun _ _ => ?_
  · exact ((Quantity.failsOnly_check_infinite _ _ _).map _).mono fun e ⟨hfinite, he⟩ =>
      .inl ⟨t, (List.mem_filter.mp ht).1, hfinite, he⟩
  · exact ((Quantity.failsOnly_check_infinite _ _ _).map _).mono fun e he => .inr he

/-- What is made anew has finite numbers. -/
theorem isFinite_of_rebuild {d : LinearClause K} {keep : String → Bool} {r : Relation} {rhs : K}
    (h : c.rebuild keep r rhs = .ok d) :
    (∀ t ∈ c.terms, keep t.1 = true → Scalar.isFinite t.2 = true) ∧
      Scalar.isFinite rhs = true := by
  obtain ⟨_, hloop, h⟩ := bind_eq_ok.mp h
  obtain ⟨_, hrhs, -⟩ := bind_eq_ok.mp h
  have hcheck {q : Quantity} {x y : K} {d : Datum K} (h : q.check x d = .ok y) :
      Scalar.isFinite x = true := by
    obtain ⟨hfinite, rfl⟩ := Quantity.isFinite_of_check h
    exact hfinite
  refine ⟨fun t ht hkeep => ?_, hcheck hrhs⟩
  obtain ⟨_, ht⟩ := exists_of_forIn hloop t (List.mem_filter.mpr ⟨ht, hkeep⟩)
  exact hcheck ht

end LinearClause

namespace Clause

variable {c : LinearClause K}

/-- A clause can be negated when all its numbers are finite. -/
theorem exists_negate_iff : (∃ d, (linear c).negate = .ok d) ↔ (linear c).IsValid := by
  constructor
  · rintro ⟨d, hd⟩
    obtain ⟨r, hr⟩ : ∃ r, r ∈ c.relation.negate := by
      cases c.relation <;> exact ⟨_, List.mem_cons_self⟩
    obtain ⟨term, hterm⟩ := exists_of_mapM hd hr
    obtain ⟨rebuilt, hrebuilt, -⟩ := bind_eq_ok.mp hterm
    obtain ⟨hterms, hrhs⟩ := LinearClause.isFinite_of_rebuild hrebuilt
    exact ⟨fun t ht => hterms t ht rfl, hrhs⟩
  · exact fun h => ⟨_, negate_linear h.1 h.2⟩

/-- Negating a clause with a finite right side fails for one of its coefficients. -/
theorem failsOnly_negate_infinite (hrhs : Scalar.isFinite c.rhs = true) :
    FailsOnly c.IsInfinite (linear c).negate :=
  failsOnly_mapM fun r _ => ((c.failsOnly_rebuild_infinite _ r c.rhs).map _).mono fun e he =>
    he.resolve_right fun hinfinite => by
      rw [hrhs] at hinfinite
      cases hinfinite.1

/-- Plugging values into a finite clause fails when the values cannot be moved to the right side or
make it too large. -/
theorem failsOnly_substitute_residue (hc : (linear c).IsValid) (values : Assignment K) (tol : K) :
    FailsOnly (fun e => c.residue values = .error e ∨ ∃ rhs, c.residue values = .ok rhs ∧
      Scalar.isFinite rhs = false ∧ e = .flaw (.infinite .rightSide (.real rhs)))
        ((linear c).substitute values tol) := by
  refine failsOnly_ite (fun _ => ?_) fun _ => failsOnly_ok _
  cases hresidue : c.residue values with
  | error e => exact failsOnly_error (.inl rfl)
  | ok rhs =>
    refine failsOnly_ite (fun _ => failsOnly_ok _) fun _ => ?_
    refine ((c.failsOnly_rebuild_infinite _ _ rhs).map _).mono fun e he => .inr ⟨rhs, rfl, ?_⟩
    refine he.resolve_left fun ⟨t, ht, hinfinite, _⟩ => ?_
    rw [hc.1 t ht] at hinfinite
    cases hinfinite

end Clause

/-! ### Finite sums -/

namespace LinearClause

variable [Scalar.Lawful K] {data : List (Datum K × Datum K)} {relation bound : Datum K}
  {pairs : List (String × K)} {r : Relation} {rhs : K} {c : LinearClause K}

/-- A coefficient that is given once is finite as a sum. -/
theorem isFinite_total_of_nodup (hnames : (pairs.map (·.1)).Nodup)
    (hpairs : ∀ t ∈ pairs, Scalar.isFinite t.2 = true) :
    ∀ t ∈ pairs, Scalar.isFinite (total t.1 pairs) = true := by
  intro t ht
  rw [total_of_nodup hnames ht]
  by_cases hzero : (t.2 == 0) = true
  · exact Scalar.Lawful.isFinite_of_beq_zero (Scalar.Lawful.add_zeros Scalar.zero_beq_zero hzero)
  · rw [Scalar.zero_add (Bool.not_eq_true _ ▸ hzero)]
    exact hpairs t ht

/-- The numbers of a clause are finite when the sums are. -/
theorem isValid_iff_of_ofPairs (h : ofPairs pairs r rhs = .ok c) :
    (Clause.linear c).IsValid ↔ ∀ t ∈ pairs, Scalar.isFinite (total t.1 pairs) = true := by
  obtain ⟨-, hrhs, -, -, rfl⟩ := content_of_ofPairs h
  constructor
  · intro hc t ht
    by_cases hzero : (total t.1 pairs == 0) = true
    · exact Scalar.Lawful.isFinite_of_beq_zero hzero
    · exact hc.1 (t.1, total t.1 pairs) ((mem_terms_iff h).mpr
        ⟨List.mem_map.mpr ⟨t, ht, rfl⟩, rfl, Bool.not_eq_true _ ▸ hzero⟩)
  · refine fun hsums => ⟨fun t ht => ?_, hrhs⟩
    obtain ⟨hname, hsum, -⟩ := (mem_terms_iff h).mp ht
    obtain ⟨p, hp, hname⟩ := List.mem_map.mp hname
    rw [hsum, ← hname]
    exact hsums p hp

/-- **Clauses are finite when their sums are.** Data that make a clause write finite numbers, and
the clause keeps their sums. All numbers of the clause are finite exactly when all sums are; this is
so when no name is given twice. Exactly then the clause can be negated, and otherwise the error
names a coefficient that is not finite. A finite clause is made of its own content, and so is every
clause over part of it with a finite right side. Plugging values into it fails only if the values
cannot be moved to the right side, or make that too large. -/
theorem isValid_iff_totals (h : make data relation bound = .ok c) :
    (∃ pairs, List.Forall₂ Writes data pairs) ∧ Scalar.isFinite c.rhs = true ∧
    (∀ pairs, List.Forall₂ Writes data pairs →
      (∀ t ∈ c.terms, t.2 = total t.1 pairs) ∧
      ((Clause.linear c).IsValid ↔ ∀ t ∈ pairs, Scalar.isFinite (total t.1 pairs) = true) ∧
      ((pairs.map (·.1)).Nodup → (Clause.linear c).IsValid)) ∧
    ((∃ d, (Clause.linear c).negate = .ok d) ↔ (Clause.linear c).IsValid) ∧
    (∀ e, (Clause.linear c).negate = .error e → c.IsInfinite e) ∧
    ((Clause.linear c).IsValid →
      ofPairs c.terms c.relation c.rhs = .ok c ∧
      (∀ keep r rhs, Scalar.isFinite rhs = true → ∃ d, c.rebuild keep r rhs = .ok d) ∧
      ∀ values tol e, (Clause.linear c).substitute values tol = .error e →
        c.residue values = .error e ∨ ∃ rhs, c.residue values = .ok rhs ∧
          Scalar.isFinite rhs = false ∧ e = .flaw (.infinite .rightSide (.real rhs))) := by
  obtain ⟨written, r, rhs, hwritten, rfl, hbound, hc⟩ := exists_ofPairs_of_make h
  have hrhs : Scalar.isFinite c.rhs = true := by
    obtain ⟨-, hrhs, -, -, rfl⟩ := content_of_ofPairs hc
    exact hrhs
  refine ⟨⟨written, hwritten⟩, hrhs, fun pairs hpairs => ?_, Clause.exists_negate_iff,
    Clause.failsOnly_negate_infinite hrhs, fun hvalid =>
      ⟨ofPairs_self c hvalid.1 hvalid.2, fun keep r rhs hfinite =>
        ⟨_, rebuild_of_isFinite keep r hvalid.1 hfinite⟩,
        Clause.failsOnly_substitute_residue hvalid⟩⟩
  have hmade : ofPairs pairs r rhs = .ok c := by rw [← make_eq_ofPairs hpairs hbound, h]
  have hgiven : ∀ t ∈ pairs, Scalar.isFinite t.2 = true := fun t ht =>
    ((content_of_ofPairs hmade).1 t ht).2
  exact ⟨fun t ht => ((mem_terms_iff hmade).mp ht).2.1, isValid_iff_of_ofPairs hmade,
    fun hnames => (isValid_iff_of_ofPairs hmade).mpr (isFinite_total_of_nodup hnames hgiven)⟩

/-- A variable that is given twice, with a finite sum. A value for the other variable is too large
to be moved to the right side. -/
theorem isValid_iff_totals_sum :
    let data : List (Datum Float × Datum Float) :=
      [(.text "x", .real 1), (.text "y", .real 3), (.text "x", .real 2)]
    let pairs : List (String × Float) := [("x", 1), ("y", 3), ("x", 2)]
    List.Forall₂ Writes data pairs ∧ (∀ t ∈ pairs, Scalar.isFinite (total t.1 pairs) = true) ∧
      ∃ c, make data (.text ">=") (.real 1) = .ok c ∧ (Clause.linear c).IsValid ∧
        (∃ d, (Clause.linear c).negate = .ok d) ∧
        (∃ d, c.rebuild (fun n => n == "x") .lt 0 = .ok d) ∧
        ∃ e, (Clause.linear c).substitute [("y", .real 1e308)] 0 = .error e ∧
          (c.residue [("y", .real 1e308)] = .error e ∨
            ∃ rhs, c.residue [("y", .real 1e308)] = .ok rhs ∧
              Scalar.isFinite rhs = false ∧ e = .flaw (.infinite .rightSide (.real rhs))) := by
  intro data pairs
  have hgiven : ∀ t ∈ pairs, Scalar.isFinite t.2 = true := by decide +kernel
  have hdata : List.Forall₂ Writes data pairs := writes_real hgiven
  have hsums : ∀ t ∈ pairs, Scalar.isFinite (total t.1 pairs) = true := by decide +kernel
  have hmake : (make data (.text ">=") (.real 1)).toOption.any (fun c =>
      ((Clause.linear c).substitute [("y", .real 1e308)] 0).toOption.isNone) = true := by
    decide +kernel
  obtain ⟨c, hc, hnone⟩ := exists_of_any_toOption hmake
  obtain ⟨-, -, hpairs, hnegate, -, hvalid⟩ := isValid_iff_totals hc
  have hfinite : (Clause.linear c).IsValid := (hpairs pairs hdata).2.1.mpr hsums
  obtain ⟨-, hrebuild, hsubstitute⟩ := hvalid hfinite
  refine ⟨hdata, hsums, c, hc, hfinite, hnegate.mpr hfinite,
    hrebuild _ _ _ Scalar.Lawful.isFinite_zero, ?_⟩
  cases hplugged : (Clause.linear c).substitute [("y", .real 1e308)] 0 with
  | ok result =>
    rw [hplugged] at hnone
    cases hnone
  | error e => exact ⟨e, rfl, hsubstitute _ _ e hplugged⟩

/-- The sum of two coefficients is too large: the clause is made with an infinity, so it can neither
be negated nor have a value plugged in for another variable. -/
theorem sum_overflows :
    ∃ c : LinearClause Float,
      make [(.text "x", .real 1e308), (.text "y", .real 1), (.text "x", .real 1e308)] (.text ">=")
        (.real 0) = .ok c ∧
      (∃ t ∈ c.terms, Scalar.isFinite t.2 = false) ∧
      (∃ e, (Clause.linear c).negate = .error e ∧ c.IsInfinite e) ∧
      ((Clause.linear c).substitute [("y", .real 1)] 0).toOption.isNone = true := by
  have hmake : (make [(.text "x", .real 1e308), (.text "y", .real 1), (.text "x", .real 1e308)]
      (.text ">=") (.real (0 : Float))).toOption.any (fun c =>
        c.terms.any (fun t => !Scalar.isFinite t.2) && Scalar.isFinite c.rhs &&
          ((Clause.linear c).substitute [("y", .real 1)] 0).toOption.isNone) = true := by
    decide +kernel
  obtain ⟨c, hc, htest⟩ := exists_of_any_toOption hmake
  rw [Bool.and_eq_true, Bool.and_eq_true] at htest
  obtain ⟨⟨hinfinite, hrhs⟩, hnone⟩ := htest
  obtain ⟨t, ht, hinfinite⟩ := List.any_eq_true.mp hinfinite
  rw [Bool.not_eq_true'] at hinfinite
  refine ⟨c, hc, ⟨t, ht, hinfinite⟩, ?_, hnone⟩
  cases hnegate : (Clause.linear c).negate with
  | ok d =>
    have hvalid := Clause.exists_negate_iff.mp ⟨d, hnegate⟩
    rw [hvalid.1 t ht] at hinfinite
    cases hinfinite
  | error e => exact ⟨e, rfl, Clause.failsOnly_negate_infinite hrhs e hnegate⟩

end LinearClause

end RuleAudit
