import RuleAudit.Dnf.Substitute
import RuleAudit.Proofs.Lexicon

/-!
# Truth after plugging values in

Plugging the values that a valuation has into a normal form keeps it true at the valuation with a
margin (`Dnf.eval_substitute`): a clause that keeps a variable has the same truth value as before,
and one that keeps none is decided with a slack that only ever helps. Clauses about labels have no
slack, so for them the converse holds too (`Dnf.eval_of_substitute`). What is left uses variables
without a value only, and has no more terms than before.
-/

namespace RuleAudit

/-! ### Comparing with a margin -/

namespace Comparison

variable {eps : Rat} {r : Relation} {x y x' y' : Rat}

/-- Only the distance between the two sides matters. -/
theorem margin_congr (h : y + x' = y' + x) : margin eps r x y = margin eps r x' y' := by
  cases r <;> refine decide_eq_decide.mpr ⟨fun hxy => ?_, fun hxy => ?_⟩ <;> linarith

/-- The same without a margin. -/
theorem exact_congr (h : y + x' = y' + x) : exact r x y = exact r x' y' := by
  rw [exact_eq, exact_eq]
  cases r <;> refine decide_eq_decide.mpr ⟨fun hxy => ?_, fun hxy => ?_⟩ <;> linarith

/-- What holds with a margin holds with slack. -/
theorem holds_of_margin (heps : 0 < eps) {tol : Rat} (htol : 0 ≤ tol)
    (h : margin eps r x y = true) : r.holds x y tol = true := by
  cases r <;> simp only [margin, Relation.holds, decide_eq_true_eq, Rational.abs_eq] at h ⊢
  case eq => rwa [h, sub_self, abs_zero]
  all_goals linarith

end Comparison

/-! ### Values of a valuation -/

/-- The values of an assignment, as far as it has any for variables in use, are those of a
valuation. -/
def Valuation.Matches (v : Valuation) (values : Assignment Rat) (uses : List (String × VarKind)) :
    Prop :=
  ∀ u ∈ uses, ∀ d, Assoc.get? u.1 values = some d → match u.2 with
    | .numeric => d.toNumber = .ok (v.number u.1)
    | .categorical => v.label u.1 = some d.label

theorem Valuation.Matches.mono {v : Valuation} {values : Assignment Rat}
    {uses uses' : List (String × VarKind)} (h : v.Matches values uses) (hu : uses' ⊆ uses) :
    v.Matches values uses' :=
  fun u hmem => h u (hu hmem)

theorem Assoc.has_eq_isSome {α β : Type} [BEq α] (k : α) (l : List (α × β)) :
    has k l = (get? k l).isSome := by
  rw [has, get?, Option.isSome_map, List.isSome_find?]

namespace Assignment

variable {a b : Assignment Rat} {uses : List (String × VarKind)}

theorem IsNumericOn.append (ha : a.IsNumericOn uses) (hb : b.IsNumericOn uses) :
    (a ++ b).IsNumericOn uses := by
  intro n hn x hx
  rw [Assoc.get?_append, Option.or_eq_some_iff] at hx
  rcases hx with hx | ⟨-, hx⟩
  · exact ha n hn x hx
  · exact hb n hn x hx

/-- An assignment has the values of a part of it, as long as this has no null for a label. -/
theorem matches_of_get?
    (hget : ∀ u ∈ uses, ∀ x, Assoc.get? u.1 b = some x → Assoc.get? u.1 a = some x)
    (hnumeric : b.IsNumericOn uses)
    (hnull : ∀ u ∈ uses, u.2 = .categorical → Assoc.get? u.1 b ≠ some .null) :
    a.valuation.Matches b uses := by
  rintro ⟨n, kind⟩ hu x hx
  have hvalue : a.value n = .ok x := value_eq_ok.mpr (hget _ hu x hx)
  cases kind with
  | numeric =>
    obtain ⟨q, hq⟩ := hnumeric n hu x hx
    dsimp only
    rw [number_valuation hvalue hq]
    exact hq
  | categorical =>
    dsimp only
    rw [label_valuation hvalue]
    cases x with
    | null => exact absurd hx (hnull _ hu rfl)
    | _ => rfl

end Assignment

/-! ### Linear clauses -/

namespace LinearClause

variable {c : LinearClause Rat} {values : Assignment Rat} {rhs : Rat} {v : Valuation}

/-- The clause over the variables without a value, with the rest on the right side. -/
def leftover (c : LinearClause Rat) (values : Assignment Rat) (rhs : Rat) : LinearClause Rat :=
  c.restrict (fun n => !Assoc.has n values) c.relation rhs

/-- Nothing is left over when all variables have values. -/
theorem leftover_eq_nil_iff (rhs : Rat) :
    (c.leftover values rhs).terms = [] ↔ c.vars.all (Assoc.has · values) = true := by
  simp [leftover, restrict, List.filter_eq_nil_iff, vars]

/-- What is left over was used before, and has no value. -/
theorem uses_leftover {u : String × VarKind}
    (hu : u ∈ (Clause.linear (c.leftover values rhs)).uses) :
    u ∈ (Clause.linear c).uses ∧ Assoc.get? u.1 values = none := by
  obtain ⟨n, hn, rfl⟩ := List.mem_map.mp hu
  obtain ⟨t, ht, rfl⟩ := List.mem_map.mp hn
  obtain ⟨ht, hfree⟩ := List.mem_filter.mp ht
  refine ⟨List.mem_map_of_mem (List.mem_map_of_mem ht), ?_⟩
  simpa [Assoc.has_eq_isSome] using hfree

/-- One term moves to the right side if its variable has a value. -/
def plug (values : Assignment Rat) (rhs : Rat) (t : String × Rat) : Except (Error Rat) Rat :=
  (Assoc.get? t.1 values).elim (.ok rhs) fun d => do return rhs - t.2 * (← d.toNumber)

theorem residue_eq_foldlM : c.residue values = c.terms.foldlM (plug values) c.rhs := by
  rw [residue]
  congr 1
  funext rhs t
  obtain ⟨n, q⟩ := t
  dsimp only [plug]
  cases Assoc.get? n values <;> rfl

/-- The right side moves by as much as the left side does. -/
private theorem plug_balance {terms : List (String × Rat)} {start : Rat}
    (h : terms.foldlM (plug values) start = .ok rhs)
    (hv : v.Matches values (terms.map fun t => (t.1, .numeric))) :
    rhs + (terms.map fun t => t.2 * v.number t.1).sum = start +
      ((terms.filter fun t => !Assoc.has t.1 values).map fun t => t.2 * v.number t.1).sum := by
  induction terms generalizing start with
  | nil =>
    obtain rfl := Except.ok.inj h
    rfl
  | cons t terms ih =>
    rw [List.foldlM_cons] at h
    obtain ⟨next, hnext, h⟩ := Outcome.bind_eq_ok.mp h
    have hrest := ih h (hv.mono (List.subset_cons_self _ _))
    have hhas := Assoc.has_eq_isSome t.1 values
    rw [List.map_cons, List.sum_cons]
    rw [plug] at hnext
    -- a variable with a value leaves the left side, any other stays on it
    cases hget : Assoc.get? t.1 values with
    | some d =>
      rw [hget] at hnext hhas
      obtain ⟨x, hx, hnext⟩ := Outcome.bind_eq_ok.mp hnext
      have hnumber : d.toNumber = .ok (v.number t.1) := hv _ List.mem_cons_self d hget
      obtain rfl := Except.ok.inj (hx.symm.trans hnumber)
      have hstart : start - t.2 * v.number t.1 = next := Except.ok.inj hnext
      rw [List.filter_cons_of_neg (by simp [hhas])]
      linarith
    | none =>
      rw [hget] at hnext hhas
      have hstart : start = next := Except.ok.inj hnext
      rw [List.filter_cons_of_pos (by simp [hhas]), List.map_cons, List.sum_cons]
      linarith

theorem residue_eq (h : c.residue values = .ok rhs)
    (hv : v.Matches values (Clause.linear c).uses) :
    rhs + c.sumAt v = c.rhs + (c.leftover values rhs).sumAt v := by
  rw [residue_eq_foldlM] at h
  refine plug_balance h ?_
  rwa [Clause.uses, vars, List.map_map] at hv

theorem exists_residue (h : ∀ n ∈ c.vars, ∀ d, Assoc.get? n values = some d →
    ∃ x : Rat, d.toNumber = .ok x) : ∃ rhs, c.residue values = .ok rhs := by
  obtain ⟨rhs, hrhs, -⟩ : ∃ rhs, c.terms.foldlM (plug values) c.rhs = .ok rhs ∧ True := by
    refine Outcome.exists_foldlM (fun _ _ => True) trivial fun seen t rhs hseen _ => ?_
    have hmem : t.1 ∈ c.vars :=
      List.mem_map_of_mem (hseen.subset (List.mem_append_right _ (List.mem_singleton_self t)))
    rw [plug]
    cases hget : Assoc.get? t.1 values with
    | some d =>
      obtain ⟨x, hx⟩ := h t.1 hmem d hget
      exact ⟨_, by rw [Option.elim, hx]; rfl, trivial⟩
    | none => exact ⟨rhs, rfl, trivial⟩
  exact ⟨rhs, by rw [residue_eq_foldlM, hrhs]⟩

end LinearClause

/-! ### Clauses -/

namespace Clause

variable {c c' : Clause Rat} {values : Assignment Rat} {tol eps : Rat} {v : Valuation}

/-- What can become of a clause: nothing when none of its variables has a value; a clause over the
variables without a value; a truth value when all variables have one. -/
theorem substitute_cases {out : Clause Rat ⊕ Bool} (h : c.substitute values tol = .ok out) :
    (c.IsProper ∧ (∀ u ∈ c.uses, Assoc.get? u.1 values = none) ∧ out = .inl c) ∨
    (∃ l rhs, c = linear l ∧ l.residue values = .ok rhs ∧ (l.leftover values rhs).terms ≠ [] ∧
      out = .inl (linear (l.leftover values rhs))) ∨
    (∃ l rhs, c = linear l ∧ l.residue values = .ok rhs ∧ (l.leftover values rhs).terms = [] ∧
      out = .inr (l.relation.holds 0 rhs tol)) ∨
    ∃ m d, c = membership m ∧ Assoc.get? m.subject values = some d ∧
      out = .inr (m.labels.contains d.label != m.negated) := by
  cases c with
  | linear l =>
    rw [substitute] at h
    split at h
    · obtain ⟨rhs, hrhs, h⟩ := Outcome.bind_eq_ok.mp h
      split at h
      · next hall =>
        have hnone := (LinearClause.leftover_eq_nil_iff rhs).mpr hall
        exact .inr (.inr (.inl ⟨l, rhs, rfl, hrhs, hnone, (Except.ok.inj h).symm⟩))
      · next hall =>
        have hsome := mt (LinearClause.leftover_eq_nil_iff rhs).mp hall
        rw [LinearClause.rebuild_eq] at h
        exact .inr (.inl ⟨l, rhs, rfl, hrhs, hsome, (Except.ok.inj h).symm⟩)
    · next hany =>
      refine .inl ⟨trivial, fun u hu => ?_, (Except.ok.inj h).symm⟩
      obtain ⟨n, hn, rfl⟩ := List.mem_map.mp hu
      have hhas := Assoc.has_eq_isSome n values
      by_contra hsome
      refine hany (List.any_eq_true.mpr ⟨n, hn, ?_⟩)
      rw [hhas]
      exact Option.isSome_iff_ne_none.mpr hsome
  | membership m =>
    rw [substitute] at h
    split at h
    · next hnone =>
      refine .inl ⟨trivial, fun u hu => ?_, (Except.ok.inj h).symm⟩
      obtain rfl := List.mem_singleton.mp hu
      exact hnone
    · next d hd => exact .inr (.inr (.inr ⟨m, d, rfl, hd, (Except.ok.inj h).symm⟩))
  | foreign d => cases h

/-- A clause whose values can be read can be evaluated partially. -/
theorem exists_substitute (hc : c.IsProper) (h : values.IsNumericOn c.uses) :
    ∃ out, c.substitute values tol = .ok out := by
  cases c with
  | linear l =>
    rw [substitute]
    split
    · obtain ⟨rhs, hrhs⟩ := l.exists_residue fun n hn d hd =>
        h n (List.mem_map_of_mem hn) d hd
      rw [hrhs, Outcome.ok_bind]
      split
      · exact ⟨_, rfl⟩
      · rw [LinearClause.rebuild_eq]
        exact ⟨_, rfl⟩
    · exact ⟨_, rfl⟩
  | membership m =>
    rw [substitute]
    split <;> exact ⟨_, rfl⟩
  | foreign d => cases hc

/-- A clause that keeps a variable keeps its truth value. -/
theorem eval_of_substitute_inl (h : c.substitute values tol = .ok (.inl c'))
    (hv : v.Matches values c.uses) : c'.eval (.margin eps) v = c.eval (.margin eps) v := by
  rcases substitute_cases h with ⟨-, -, hout⟩ | ⟨l, rhs, rfl, hrhs, -, hout⟩ |
    ⟨l, rhs, rfl, hrhs, -, hout⟩ | ⟨m, d, rfl, hd, hout⟩
  · rw [Sum.inl.inj hout]
  · rw [Sum.inl.inj hout]
    refine Comparison.margin_congr ?_
    exact LinearClause.residue_eq hrhs hv
  · cases hout
  · cases hout

/-- A clause that is true with a margin is not decided to be false. -/
theorem eval_of_substitute_inr {b : Bool} (h : c.substitute values tol = .ok (.inr b))
    (heps : 0 < eps) (htol : 0 ≤ tol) (hv : v.Matches values c.uses)
    (hc : c.eval (.margin eps) v = true) : b = true := by
  rcases substitute_cases h with ⟨-, -, hout⟩ | ⟨l, rhs, rfl, hrhs, -, hout⟩ |
    ⟨l, rhs, rfl, hrhs, hterms, hout⟩ | ⟨m, d, rfl, hd, hout⟩
  · cases hout
  · cases hout
  · -- no variable is left, so the slack of the comparison of zero decides
    have hbalance := LinearClause.residue_eq hrhs hv
    have hzero : (l.leftover values rhs).sumAt v = 0 := by
      rw [LinearClause.sumAt, hterms]
      rfl
    rw [hzero, add_zero] at hbalance
    rw [Sum.inr.inj hout]
    refine Comparison.holds_of_margin heps htol ((Comparison.margin_congr ?_).trans hc)
    rw [add_zero, hbalance]
  · have hlabel : v.label m.subject = some d.label := hv _ (List.mem_singleton_self _) d hd
    rw [Sum.inr.inj hout, ← hc, eval, MembershipClause.lists, hlabel]

/-- A clause about a label is decided rightly. -/
theorem eval_eq_of_substitute_inr {b : Bool} (h : c.substitute values tol = .ok (.inr b))
    (hc : c.IsMembership) (hv : v.Matches values c.uses) (cmp : Comparison) :
    c.eval cmp v = b := by
  rcases substitute_cases h with ⟨-, -, hout⟩ | ⟨l, rhs, rfl, -⟩ | ⟨l, rhs, rfl, -⟩ |
    ⟨m, d, rfl, hd, hout⟩
  · cases hout
  · cases hc
  · cases hc
  · have hlabel : v.label m.subject = some d.label := hv _ (List.mem_singleton_self _) d hd
    rw [Sum.inr.inj hout, eval, MembershipClause.lists, hlabel]

/-- A clause is about variables of another one that have no value, and about labels of it. -/
structure IsResidue (values : Assignment Rat) (c c' : Clause Rat) : Prop where
  proper : c'.IsProper
  uses : c'.uses ⊆ c.uses
  free : ∀ u ∈ c'.uses, Assoc.get? u.1 values = none
  mentions : ∀ v l, c'.Mentions v l → c.Mentions v l
  constant : c.constant? = none → c'.constant? = none
  membership : c.IsMembership → c'.IsMembership

theorem isResidue_of_substitute (h : c.substitute values tol = .ok (.inl c')) :
    c.IsResidue values c' := by
  rcases substitute_cases h with ⟨hc, hfree, hout⟩ | ⟨l, rhs, rfl, -, hterms, hout⟩ |
    ⟨l, rhs, rfl, -, -, hout⟩ | ⟨m, d, rfl, -, hout⟩
  · obtain rfl := Sum.inl.inj hout
    exact ⟨hc, List.Subset.refl _, hfree, fun _ _ hm => hm, id, id⟩
  · obtain rfl := Sum.inl.inj hout
    refine ⟨trivial, fun u hu => (LinearClause.uses_leftover hu).1,
      fun u hu => (LinearClause.uses_leftover hu).2, fun _ _ hm => hm.elim, fun _ => ?_, id⟩
    rw [constant?, if_neg (by simpa using hterms)]
  · cases hout
  · cases hout

/-- What is left of a clause that fits a lexicon fits it. -/
theorem IsResidue.fits {L : Lexicon} (h : c.IsResidue values c') (hc : c.Fits L) : c'.Fits L :=
  ⟨⟨h.proper, hc.1.2.mono h.uses⟩, fun v l hm => hc.2 v l (h.mentions v l hm)⟩

end Clause

/-! ### Normal forms -/

namespace Dnf

variable {d d' : Dnf Rat} {term term' : Term Rat} {values : Assignment Rat} {tol eps : Rat}
  {v : Valuation}

/-- The clauses that are left are what is left of clauses. -/
theorem substituteTerm_residue (h : substituteTerm values tol term = .ok (some term')) :
    ∀ c' ∈ term', ∃ c ∈ term, c.IsResidue values c' := by
  induction term generalizing term' with
  | nil =>
    obtain rfl := Option.some.inj (Except.ok.inj h)
    exact fun c' hc' => by cases hc'
  | cons c term ih =>
    rw [substituteTerm] at h
    obtain ⟨out, hout, h⟩ := Outcome.bind_eq_ok.mp h
    have hmono {c' : Clause Rat} : (∃ b ∈ term, b.IsResidue values c') →
        ∃ b ∈ c :: term, b.IsResidue values c' :=
      fun ⟨b, hb, hres⟩ => ⟨b, List.mem_cons_of_mem c hb, hres⟩
    rcases out with b | (_ | _)
    · obtain ⟨rest, hrest, h⟩ := Outcome.bind_eq_ok.mp h
      obtain ⟨kept, rfl, rfl⟩ := Option.map_eq_some_iff.mp (Except.ok.inj h)
      refine List.forall_mem_cons.mpr ⟨?_, fun c' hc' => hmono (ih hrest c' hc')⟩
      exact ⟨c, List.mem_cons_self, Clause.isResidue_of_substitute hout⟩
    · cases Except.ok.inj h
    · exact fun c' hc' => hmono (ih h c' hc')

/-- A term that is true with a margin is not dropped, and what is left of it is true. -/
theorem eval_substituteTerm {out : Option (Term Rat)}
    (h : substituteTerm values tol term = .ok out) (heps : 0 < eps) (htol : 0 ≤ tol)
    (hv : v.Matches values (term.flatMap Clause.uses))
    (hterm : term.all (Clause.eval (.margin eps) v) = true) :
    ∃ term', out = some term' ∧ term'.all (Clause.eval (.margin eps) v) = true := by
  induction term generalizing out with
  | nil => exact ⟨[], (Except.ok.inj h).symm, rfl⟩
  | cons c term ih =>
    rw [List.all_cons, Bool.and_eq_true] at hterm
    have hc : v.Matches values c.uses := hv.mono (List.subset_append_left _ _)
    have hrest' : v.Matches values (term.flatMap Clause.uses) :=
      hv.mono (List.subset_append_right _ _)
    rw [substituteTerm] at h
    obtain ⟨result, hresult, h⟩ := Outcome.bind_eq_ok.mp h
    rcases result with b | b
    · obtain ⟨rest, hrest, h⟩ := Outcome.bind_eq_ok.mp h
      obtain ⟨kept, rfl, hkept⟩ := ih hrest hrest' hterm.2
      refine ⟨b :: kept, (Except.ok.inj h).symm, ?_⟩
      rw [List.all_cons, Clause.eval_of_substitute_inl hresult hc, hterm.1, hkept]
      rfl
    · -- a clause that is decided to be true leaves the term
      obtain rfl := Clause.eval_of_substitute_inr hresult heps htol hc hterm.1
      exact ih h hrest' hterm.2

/-- When what is left of a term of clauses about labels is true, the term is. -/
theorem eval_of_substituteTerm (h : substituteTerm values tol term = .ok (some term'))
    (hmembership : ∀ c ∈ term, c.IsMembership) (hv : v.Matches values (term.flatMap Clause.uses))
    (hterm : term'.all (Clause.eval (.margin eps) v) = true) :
    term.all (Clause.eval (.margin eps) v) = true := by
  induction term generalizing term' with
  | nil => rfl
  | cons c term ih =>
    obtain ⟨hc, hmembership⟩ := List.forall_mem_cons.mp hmembership
    have hmatches : v.Matches values c.uses := hv.mono (List.subset_append_left _ _)
    have hrest' : v.Matches values (term.flatMap Clause.uses) :=
      hv.mono (List.subset_append_right _ _)
    rw [substituteTerm] at h
    obtain ⟨result, hresult, h⟩ := Outcome.bind_eq_ok.mp h
    rw [List.all_cons, Bool.and_eq_true]
    rcases result with b | (_ | _)
    · obtain ⟨rest, hrest, h⟩ := Outcome.bind_eq_ok.mp h
      obtain ⟨kept, rfl, rfl⟩ := Option.map_eq_some_iff.mp (Except.ok.inj h)
      rw [List.all_cons, Bool.and_eq_true] at hterm
      rw [← Clause.eval_of_substitute_inl hresult hmatches]
      exact ⟨hterm.1, ih hrest hmembership hrest' hterm.2⟩
    · cases Except.ok.inj h
    · exact ⟨Clause.eval_eq_of_substitute_inr hresult hc hmatches _, ih h hmembership hrest' hterm⟩

theorem exists_substituteTerm (hproper : ∀ c ∈ term, c.IsProper)
    (h : values.IsNumericOn (term.flatMap Clause.uses)) :
    ∃ out, substituteTerm values tol term = .ok out := by
  induction term with
  | nil => exact ⟨_, rfl⟩
  | cons c term ih =>
    obtain ⟨hc, hproper⟩ := List.forall_mem_cons.mp hproper
    obtain ⟨out, hout⟩ : ∃ out, c.substitute values tol = .ok out :=
      Clause.exists_substitute hc (h.mono (List.subset_append_left _ _))
    obtain ⟨rest, hrest⟩ := ih hproper (h.mono (List.subset_append_right _ _))
    rw [substituteTerm, hout, Outcome.ok_bind]
    rcases out with c' | (_ | _)
    · exact ⟨_, by rw [hrest]; rfl⟩
    · exact ⟨_, rfl⟩
    · exact ⟨_, hrest⟩

/-! ### All terms -/

/-- The terms of the result are what is left of terms. -/
private theorem substitute_eq (h : d.substitute values tol = .ok d') :
    ∃ terms, List.Forall₂ (fun term out => substituteTerm values tol term = .ok out) d terms ∧
      d' = reduce (terms.filterMap id) := by
  obtain ⟨terms, hterms, h⟩ := Outcome.bind_eq_ok.mp h
  exact ⟨terms, Outcome.forall₂_of_mapM hterms, (Except.ok.inj h).symm⟩

private theorem exists_term_of_mem {terms : List (Option (Term Rat))}
    (h : List.Forall₂ (fun term out => substituteTerm values tol term = .ok out) d terms)
    (hmem : term' ∈ terms.filterMap id) :
    ∃ term ∈ d, substituteTerm values tol term = .ok (some term') := by
  obtain ⟨out, hout, rfl⟩ := List.mem_filterMap.mp hmem
  induction h with
  | nil => cases hout
  | cons hterm _ ih =>
    rcases List.mem_cons.mp hout with rfl | hout
    · exact ⟨_, List.mem_cons_self, hterm⟩
    · obtain ⟨term, hmem, hterm⟩ := ih (List.mem_filterMap.mpr ⟨_, hout, rfl⟩) hout
      exact ⟨term, List.mem_cons_of_mem _ hmem, hterm⟩

private theorem within_filterMap {terms : List (Option (Term Rat))}
    (h : List.Forall₂ (fun term out => substituteTerm values tol term = .ok out) d terms) :
    Within (terms.filterMap id) fun c' => ∃ c ∈ d.flatten, c.IsResidue values c' := by
  intro term' hterm' c' hc'
  obtain ⟨term, hterm, hsub⟩ := exists_term_of_mem h hterm'
  obtain ⟨c, hc, hres⟩ := substituteTerm_residue hsub c' hc'
  exact ⟨c, List.mem_flatten.mpr ⟨term, hterm, hc⟩, hres⟩

/-- The clauses that are left of a normal form are what is left of its clauses. -/
theorem within_substitute (h : d.substitute values tol = .ok d') :
    d'.Within fun c' => ∃ c ∈ d.flatten, c.IsResidue values c' := by
  obtain ⟨terms, hterms, rfl⟩ := substitute_eq h
  exact (within_filterMap hterms).reduce

theorem isProper_of_substitute (h : d.substitute values tol = .ok d') :
    d'.Within Clause.IsProper := by
  intro term hterm c' hc'
  obtain ⟨c, -, hres⟩ := within_substitute h term hterm c' hc'
  exact hres.proper

/-- What is left over was used before, and has no value. -/
theorem uses_of_substitute (h : d.substitute values tol = .ok d') :
    ∀ u ∈ d'.flatten.flatMap Clause.uses,
      u ∈ d.flatten.flatMap Clause.uses ∧ Assoc.get? u.1 values = none := by
  intro u hu
  obtain ⟨c', hc', hu⟩ := List.mem_flatMap.mp hu
  obtain ⟨term, hterm, hmem⟩ := List.mem_flatten.mp hc'
  obtain ⟨c, hc, hres⟩ := within_substitute h term hterm c' hmem
  exact ⟨List.mem_flatMap.mpr ⟨c, hc, hres.uses hu⟩, hres.free u hu⟩

/-- There are no more terms than before. -/
theorem length_substitute_le (h : d.substitute values tol = .ok d') : d'.length ≤ d.length := by
  obtain ⟨terms, hterms, rfl⟩ := substitute_eq h
  calc (reduce (terms.filterMap id)).length
      ≤ (terms.filterMap id).length := length_reduce_le _
    _ ≤ terms.length := List.length_filterMap_le _ _
    _ = d.length := hterms.length_eq.symm

theorem isReduced_substitute (h : d.substitute values tol = .ok d') : d'.IsReduced := by
  obtain ⟨terms, -, rfl⟩ := substitute_eq h
  exact ⟨_, rfl⟩

/-- A normal form whose values can be read can be evaluated partially. -/
theorem exists_substitute (hproper : d.Within Clause.IsProper)
    (h : values.IsNumericOn (d.flatten.flatMap Clause.uses)) :
    ∃ d', d.substitute values tol = .ok d' := by
  have hterms : ∀ term ∈ d, ∃ out, substituteTerm values tol term = .ok out := by
    intro term hterm
    exact exists_substituteTerm (hproper term hterm) (h.mono (uses_term_subset hterm))
  choose! out hout using hterms
  exact ⟨_, by rw [substitute, Outcome.mapM_eq_map hout]; rfl⟩

variable (hd : d.IsReduced) (h : d.substitute values tol = .ok d')
  (hv : v.Matches values (d.flatten.flatMap Clause.uses))

include hd h hv

/-- Deciding constants changes nothing, since none are left. -/
private theorem eval_substitute_iff (eps : Rat) : ∃ terms : List (Option (Term Rat)),
    List.Forall₂ (fun term out => substituteTerm values tol term = .ok out) d terms ∧
      (∀ term ∈ d, v.Matches values (term.flatMap Clause.uses)) ∧
      (d'.eval (.margin eps) v = true ↔
        ∃ term' ∈ terms.filterMap id, term'.all (Clause.eval (.margin eps) v) = true) := by
  obtain ⟨terms, hterms, rfl⟩ := substitute_eq h
  have hopen : IsOpen (terms.filterMap id) := fun term' hterm' c' hc' => by
    obtain ⟨c, hc, hres⟩ := within_filterMap hterms term' hterm' c' hc'
    obtain ⟨term, hterm, hmem⟩ := List.mem_flatten.mp hc
    exact hres.constant (hd.isOpen term hterm c hmem)
  refine ⟨terms, hterms, fun term hterm => hv.mono (uses_term_subset hterm), ?_⟩
  rw [eval_reduce (hopen.decides _ _), eval, List.any_eq_true]

/-- **Plugging in keeps what is true.** A normal form that is true with a margin at a valuation
stays so when values of the valuation are plugged in. -/
theorem eval_substitute (heps : 0 < eps) (htol : 0 ≤ tol)
    (htrue : d.eval (.margin eps) v = true) : d'.eval (.margin eps) v = true := by
  obtain ⟨terms, hterms, hmatches, hiff⟩ := eval_substitute_iff hd h hv eps
  obtain ⟨term, hterm, hall⟩ := List.any_eq_true.mp htrue
  rw [hiff]
  clear hiff hd h hv htrue
  induction hterms with
  | nil => cases hterm
  | cons hsub _ ih =>
    rcases List.mem_cons.mp hterm with rfl | hterm
    · obtain ⟨term', rfl, htrue⟩ :=
        eval_substituteTerm hsub heps htol (hmatches _ List.mem_cons_self) hall
      exact ⟨term', List.mem_filterMap.mpr ⟨_, List.mem_cons_self, rfl⟩, htrue⟩
    · obtain ⟨term', hmem, htrue⟩ :=
        ih (fun t ht => hmatches t (List.mem_cons_of_mem _ ht)) hterm
      refine ⟨term', ?_, htrue⟩
      rw [List.filterMap_cons]
      dsimp only [id]
      split
      · exact hmem
      · exact List.mem_cons_of_mem _ hmem

/-- On clauses about labels, plugging in makes nothing true. -/
theorem eval_of_substitute (hmembership : d.Within Clause.IsMembership)
    (htrue : d'.eval (.margin eps) v = true) : d.eval (.margin eps) v = true := by
  obtain ⟨terms, hterms, hmatches, hiff⟩ := eval_substitute_iff hd h hv eps
  obtain ⟨term', hterm', hall⟩ := hiff.mp htrue
  obtain ⟨term, hterm, hsub⟩ := exists_term_of_mem hterms hterm'
  exact List.any_eq_true.mpr ⟨term, hterm,
    eval_of_substituteTerm hsub (hmembership term hterm) (hmatches term hterm) hall⟩

end Dnf

end RuleAudit
