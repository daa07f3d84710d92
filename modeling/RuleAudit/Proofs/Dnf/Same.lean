import RuleAudit.Proofs.Dnf.Normalize
import RuleAudit.Proofs.Tree.RoundTrip

/-!
# Equal expressions have equal normal forms

Expressions are compared node by node. Constants are compared by value, so different data can be
equal constants, but equal data count as true together (`Datum.truth_eq_of_same`). Clauses are
compared by their numbers, so equal clauses can differ in the sign of a zero on the right side, and
in nothing else (`Clause.dropSign_eq_of_beq`). Apart from these signs, equal expressions are
therefore normalised in the same steps, and normal forms do not see the signs.

An undefined number does not even equal itself, but what equals something does.
-/

namespace RuleAudit

variable {K : Type} [Scalar K]

/-! ### Constants -/

namespace Datum

variable [Scalar.ExactZero K] {a b : Datum K}

/-- A number counts as true when its exact value is not zero. -/
theorem truth_of_toRat? {q : Rat} (h : a.toRat? = some q) : a.truth = !(q == 0) := by
  cases a with
  | bool b =>
    obtain rfl := Option.some.inj h
    cases b <;> rfl
  | int n =>
    obtain rfl := Option.some.inj h
    rw [truth, Bool.eq_iff_iff]
    simp
  | real x =>
    have hzero : (x == 0) = (q == 0) :=
      Bool.eq_iff_iff.mpr ((Scalar.ExactZero.beq_zero_iff h).trans beq_iff_eq.symm)
    exact congrArg not hzero
  | _ => cases h

theorem truth_of_sameNumber (h : same.sameNumber a b = true) : a.truth = b.truth := by
  rw [same.sameNumber] at h
  split at h
  · next p q hp hq => rw [truth_of_toRat? hp, truth_of_toRat? hq, eq_of_beq h]
  · cases h

/-- Equal data count as true together. -/
theorem truth_eq_of_same [Scalar.Lawful K] (h : a.same b = true) : a.truth = b.truth := by
  cases a with
  | null =>
    cases b with
    | null => rfl
    | _ => simp [same] at h
  | bool x => rw [same] at h; exact truth_of_sameNumber h
  | int n => rw [same] at h; exact truth_of_sameNumber h
  | real x =>
    cases b with
    | real y => rw [same] at h; exact congrArg not (Scalar.beq_zero_congr h)
    | _ => exact truth_of_sameNumber (by simpa [same] using h)
  | text s =>
    cases b with
    | text t => rw [same] at h; rw [eq_of_beq h]
    | _ => simp [same] at h
  | list xs =>
    cases b with
    | list ys => rw [same] at h; cases xs <;> cases ys <;> first | rfl | cases h
    | _ => simp [same] at h
  | mapping xs =>
    cases b with
    | mapping ys => rw [same] at h; cases xs <;> cases ys <;> first | rfl | cases h
    | _ => simp [same] at h

end Datum

/-! ### Clauses -/

namespace Clause

variable {c d : Clause K}

/-- The opposite of a clause that equals itself does, too. -/
theorem opposite_beq_self (hc : (c == c) = true) : c.opposite.Within fun o => (o == o) = true := by
  intro term hterm o ho
  cases c with
  | linear c =>
    obtain ⟨r, -, rfl⟩ := List.mem_map.mp hterm
    obtain rfl := List.mem_singleton.mp ho
    have hparts : (c.terms == c.terms && c.relation == c.relation && c.rhs == c.rhs) = true := hc
    rw [Bool.and_eq_true, Bool.and_eq_true] at hparts
    obtain ⟨⟨hterms, -⟩, hrhs⟩ := hparts
    have hself : ((c.restrict (fun _ => true) r c.rhs).terms ==
      (c.restrict (fun _ => true) r c.rhs).terms && r == r && c.rhs == c.rhs) = true := by
      rw [c.terms_restrict, hterms, hrhs, beq_self_eq_true]
      rfl
    exact hself
  | membership c =>
    obtain rfl := List.mem_singleton.mp hterm
    obtain rfl := List.mem_singleton.mp ho
    exact beq_self_eq_true c.negate
  | foreign v => cases hterm

variable [Scalar.Lawful K]

/-- A clause that equals something equals itself. -/
theorem beq_self_of_beq (hc : c.IsProper) (h : (c == d) = true) : (c == c) = true := by
  have hdrop := dropSign_eq_of_beq hc h
  calc (c == c) = (c.dropSign == c.dropSign) := (isNatural_dropSign.beq_eq c c).symm
    _ = (c.dropSign == d.dropSign) := by rw [← hdrop]
    _ = (c == d) := isNatural_dropSign.beq_eq c d
    _ = true := h

end Clause

/-! ### Expressions -/

namespace Expr

variable {rule : Datum K}

mutual
/-- Equal expressions are normalised in the same steps, signs aside, and what equals something has
no undefined numbers in it. -/
theorem normalize_of_same [Scalar.Lawful K] [Scalar.ExactZero K] :
    ∀ {e f : Expr K}, e.same f = true → e.IsProper →
    (∀ positive census, f.dropSigns.normalize rule positive census =
      e.dropSigns.normalize rule positive census) ∧
    ∀ c, .inl c ∈ e.leaves → (c == c) = true
  | atom c, f, h, he => by
    obtain ⟨_, ⟨⟩, hc⟩ := he _ List.mem_cons_self
    cases f with
    | atom d =>
      rw [same] at h
      refine ⟨fun positive census => ?_, fun b hb => ?_⟩
      · rw [dropSigns, mapClauses, dropSigns, mapClauses, Clause.dropSign_eq_of_beq hc h]
      · obtain rfl := Sum.inl.inj (List.mem_singleton.mp hb)
        exact Clause.beq_self_of_beq hc h
    | _ => simp [same] at h
  | const v, f, h, _ => by
    cases f with
    | const w =>
      rw [same] at h
      refine ⟨fun positive census => ?_, fun _ => nofun⟩
      rw [dropSigns, mapClauses, dropSigns, mapClauses, normalize, normalize,
        Datum.truth_eq_of_same h]
    | _ => simp [same] at h
  | not e, f, h, he => by
    cases f with
    | not f =>
      rw [same] at h
      obtain ⟨hsteps, hself⟩ := normalize_of_same h he
      refine ⟨fun positive census => ?_, hself⟩
      rw [dropSigns, mapClauses, normalize, hsteps]
      rfl
    | _ => simp [same] at h
  | ifThen a c, f, h, he => by
    cases f with
    | ifThen b d =>
      rw [same, Bool.and_eq_true] at h
      obtain ⟨ha, hc⟩ := List.forall_mem_append.mp he
      obtain ⟨hleft, hselfLeft⟩ := normalize_of_same h.1 ha
      obtain ⟨hright, hselfRight⟩ := normalize_of_same h.2 hc
      refine ⟨fun positive census => ?_, fun k hk => ?_⟩
      · simp only [dropSigns, mapClauses, normalize] at hleft hright ⊢
        simp only [hleft, hright]
      · exact (List.mem_append.mp hk).elim (hselfLeft k) (hselfRight k)
    | _ => simp [same] at h
  | and args, f, h, he => by
    cases f with
    | and others =>
      rw [same] at h
      obtain ⟨hsteps, hself⟩ := normalizeEach_of_sameArgs h he
      refine ⟨fun positive census => ?_, hself⟩
      rw [dropSigns, mapClauses, normalize, hsteps]
      rfl
    | _ => simp [same] at h
  | or args, f, h, he => by
    cases f with
    | or others =>
      rw [same] at h
      obtain ⟨hsteps, hself⟩ := normalizeEach_of_sameArgs h he
      refine ⟨fun positive census => ?_, hself⟩
      rw [dropSigns, mapClauses, normalize, hsteps]
      rfl
    | _ => simp [same] at h
  | foreign v, f, _, he => by
    obtain ⟨_, ⟨⟩, _⟩ := he _ List.mem_cons_self

theorem normalizeEach_of_sameArgs [Scalar.Lawful K] [Scalar.ExactZero K] :
    ∀ {es fs : List (Expr K)}, sameArgs es fs = true →
    (∀ leaf ∈ leavesEach es, ∃ c : Clause K, leaf = .inl c ∧ c.IsProper) →
    (∀ positive census, normalizeEach rule (mapClausesEach Clause.dropSign fs) positive census =
      normalizeEach rule (mapClausesEach Clause.dropSign es) positive census) ∧
    ∀ c, .inl c ∈ leavesEach es → (c == c) = true
  | [], fs, h, _ => by
    rw [sameArgs] at h
    obtain rfl := List.isEmpty_iff.mp h
    exact ⟨fun _ _ => rfl, fun _ => nofun⟩
  | e :: es, fs, h, hes => by
    cases fs with
    | nil => simp [sameArgs] at h
    | cons f fs =>
      rw [sameArgs, Bool.and_eq_true] at h
      obtain ⟨he, hes⟩ := List.forall_mem_append.mp hes
      obtain ⟨hfirst, hselfFirst⟩ := normalize_of_same h.1 he
      obtain ⟨hrest, hselfRest⟩ := normalizeEach_of_sameArgs h.2 hes
      refine ⟨fun positive census => ?_, fun c hc => ?_⟩
      · simp only [dropSigns, mapClausesEach, normalizeEach] at hfirst hrest ⊢
        simp only [hfirst, hrest]
      · exact (List.mem_append.mp hc).elim (hselfFirst c) (hselfRest c)
end

/-- **Equal expressions have equal normal forms.** -/
theorem exists_toDnf_of_same [Scalar.Lawful K] [Scalar.ExactZero K] {e f : Expr K} {d : Dnf K}
    (h : e.same f = true) (hd : e.toDnf rule = .ok d) :
    ∃ d', f.toDnf rule = .ok d' ∧ (d == d') = true := by
  obtain ⟨hsteps, hself⟩ := @normalize_of_same K _ rule _ _ e f h (isProper_of_toDnf hd)
  have hdrop : f.dropSigns.toDnf rule = e.dropSigns.toDnf rule := by rw [toDnf, hsteps, ← toDnf]
  obtain ⟨d', hd', hsigns⟩ := exists_toDnf_of_dropSigns hdrop hd
  have hclauses : d.Within fun c => (c == c) = true := by
    rw [eq_form_of_toDnf hd]
    exact within_form_of_leaves (fun c => Clause.opposite_beq_self) e true hself
  refine ⟨d', hd', ?_⟩
  calc (d == d') = (d.mapClauses Clause.dropSign == d'.mapClauses Clause.dropSign) :=
        (Dnf.mapClauses_beq Clause.isNatural_dropSign d d').symm
    _ = (d.mapClauses Clause.dropSign == d.mapClauses Clause.dropSign) := by rw [hsigns]
    _ = (d == d) := Dnf.mapClauses_beq Clause.isNatural_dropSign d d
    _ = true := beq_self_of_forall fun term hterm => beq_self_of_forall (hclauses term hterm)

end Expr

end RuleAudit
