import RuleAudit.Proofs.Dnf.Substitute

/-!
# Rewriting normal forms clause by clause

Reducing a normal form and plugging values into it have the same shape: every clause becomes another
clause or a truth value, false clauses take their terms with them, true ones go, repetitions are
dropped, and a term without clauses makes the whole form the true marker. `Dnf.rewrite` does this
for any way of rewriting clauses. What happens to the clauses is all that matters: rewriting in two
steps is rewriting in one, since a step that treats equal clauses alike is not disturbed by what
the step before it has dropped or collapsed (`Dnf.rewrite_rewrite`), and the form keeps its truth
value when the clauses keep theirs (`Dnf.eval_rewrite`).
-/

namespace RuleAudit

/-! ### Dropping repetitions early -/

section EraseDups

variable {α β : Type} [BEq α] [BEq β] [ReflBEq β]

/-- Repetitions may be dropped before a step that treats equal items alike. -/
theorem eraseDups_filterMap_eraseDups {f : α → Option β} {l : List α}
    (hf : ∀ a b, (a == b) = true → f a = f b) :
    (l.eraseDups.filterMap f).eraseDups = (l.filterMap f).eraseDups := by
  -- the step changes on the way, as it forgets what equals an item that was kept
  induction h : l.length using Nat.strong_induction_on generalizing l f with
  | _ n ih =>
    cases l with
    | nil => rfl
    | cons a l =>
      have hlen : (l.filter fun b => !b == a).length < n := by
        have := List.length_filter_le (fun b => !b == a) l
        simp only [List.length_cons] at h
        omega
      have hdropped : ∀ g : α → Option β, (∀ b, (b == a) = true → g b = none) →
          (l.filter fun b => !b == a).filterMap g = l.filterMap g := by
        intro g hg
        rw [List.filterMap_filter]
        refine List.filterMap_congr ?_
        intro b _
        cases hb : b == a with
        | true => exact (hg b hb).symm
        | false => rfl
      rw [List.eraseDups_cons]
      cases ha : f a with
      | none =>
        rw [List.filterMap_cons_none ha, List.filterMap_cons_none ha, ih _ hlen hf rfl]
        rw [hdropped f fun b hb => (hf b a hb).trans ha]
      | some x =>
        rw [List.filterMap_cons_some ha, List.filterMap_cons_some ha, List.eraseDups_cons,
          List.eraseDups_cons, List.filter_filterMap, List.filter_filterMap]
        refine congrArg (x :: ·) ?_
        rw [ih _ hlen (fun b c hbc => by rw [hf b c hbc]) rfl]
        refine congrArg List.eraseDups (hdropped _ ?_)
        intro b hb
        rw [(hf b a hb).trans ha]
        simp

end EraseDups

/-! ### Clauses -/

namespace Clause

section

variable {K : Type} [Scalar K]

/-- What becomes of a clause when it is decided if it is constant. -/
def settle (c : Clause K) : Clause K ⊕ Bool :=
  match c.constant? with
  | some b => .inr b
  | none => .inl c

theorem settle_of_constant? {c : Clause K} {b : Bool} (h : c.constant? = some b) :
    c.settle = .inr b := by
  rw [settle, h]

theorem settle_of_open {c : Clause K} (h : c.constant? = none) : c.settle = .inl c := by
  rw [settle, h]

theorem getRight?_settle (c : Clause K) : c.settle.getRight? = c.constant? := by
  rw [settle]
  cases c.constant? with
  | none => rfl
  | some b => rfl

theorem getLeft?_settle (c : Clause K) :
    c.settle.getLeft? = Option.guard (·.constant? == none) c := by
  rw [settle, Option.guard]
  cases c.constant? with
  | none => rfl
  | some b => rfl

end

/-- Deciding a constant clause keeps its truth value. -/
theorem eval_settle (c : Clause Rat) (v : Valuation) :
    c.settle.elim (eval .exact v) id = c.eval .exact v := by
  cases hc : c.constant? with
  | none => rw [settle_of_open hc, Sum.elim_inl]
  | some b => rw [settle_of_constant? hc, Sum.elim_inr, eval_of_constant? hc, id]

end Clause

/-! ### Terms -/

namespace Term

section

variable {K : Type} [Scalar K]

/-- A term with its clauses rewritten, or nothing when one of them is false. -/
def rewrite (f : Clause K → Clause K ⊕ Bool) : Term K → Option (Term K)
  | [] => some []
  | c :: rest => match f c with
    | .inr false => none
    | .inr true => rewrite f rest
    | .inl c => (rewrite f rest).map (c :: ·)

/-- A rewritten term without repetitions. -/
def rewriteDistinct (f : Clause K → Clause K ⊕ Bool) (term : Term K) : Option (Term K) :=
  (rewrite f term).map (·.eraseDups)

variable {f g : Clause K → Clause K ⊕ Bool}

/-- Whether a term is dropped is decided by its truth values, and what it keeps by its clauses. -/
theorem rewrite_eq (term : Term K) :
    rewrite f term = if term.any (fun c => (f c).getRight? == some false) then none
      else some (term.filterMap fun c => (f c).getLeft?) := by
  induction term with
  | nil => rfl
  | cons c term ih =>
    rw [rewrite, List.any_cons]
    cases hc : f c with
    | inr b =>
      cases b with
      | false => rfl
      | true =>
        rw [List.filterMap_cons_none (by rw [hc]; rfl)]
        exact ih
    | inl d =>
      have hkept : ((Sum.inl d : Clause K ⊕ Bool).getRight? == some false) = false := rfl
      rw [List.filterMap_cons_some (by rw [hc]; rfl), hkept, Bool.false_or]
      dsimp only
      rw [ih]
      split
      · rfl
      · rfl

theorem rewrite_congr {term : Term K} (h : ∀ c ∈ term, f c = g c) :
    rewrite f term = rewrite g term := by
  induction term with
  | nil => rfl
  | cons c term ih =>
    obtain ⟨hc, hterm⟩ := List.forall_mem_cons.mp h
    rw [rewrite, rewrite, hc, ih hterm]

/-- Rewriting twice is rewriting once, each clause as long as it is one. -/
theorem rewrite_rewrite (term : Term K) :
    (rewrite f term).bind (rewrite g) = rewrite (fun c => (f c).elim g .inr) term := by
  induction term with
  | nil => rfl
  | cons c term ih =>
    rw [rewrite, rewrite]
    cases f c with
    | inr b =>
      cases b with
      | false => rfl
      | true => exact ih
    | inl d =>
      dsimp only [Sum.elim_inl]
      rw [Option.bind_map, ← ih]
      cases rewrite f term with
      | none =>
        cases g d with
        | inl e => rfl
        | inr b =>
          cases b with
          | false => rfl
          | true => rfl
      | some kept => rfl

/-- Equal terms become the same if equal clauses do. -/
theorem rewrite_eq_of_beq (hg : ∀ c d, (c == d) = true → g c = g d) {s t : Term K}
    (h : (s == t) = true) : rewrite g s = rewrite g t := by
  induction s generalizing t with
  | nil =>
    cases t with
    | nil => rfl
    | cons d t => cases h
  | cons c s ih =>
    cases t with
    | nil => cases h
    | cons d t =>
      rw [List.cons_beq_cons, Bool.and_eq_true] at h
      rw [rewrite, rewrite, hg c d h.1, ih h.2]

end

section Again

variable {f g : Clause Rat → Clause Rat ⊕ Bool} (hg : ∀ c d, (c == d) = true → g c = g d)

include hg

/-- Repeated clauses may be dropped before they are rewritten. -/
theorem rewriteDistinct_eraseDups (term : Term Rat) :
    rewriteDistinct g term.eraseDups = rewriteDistinct g term := by
  have hany : (term.eraseDups.any fun c => (g c).getRight? == some false) =
      term.any fun c => (g c).getRight? == some false :=
    any_eraseDups (fun c d hcd => by rw [hg c d hcd]) term
  rw [rewriteDistinct, rewriteDistinct, rewrite_eq, rewrite_eq, hany]
  split
  · rfl
  · exact congrArg some (eraseDups_filterMap_eraseDups fun c d hcd => by rw [hg c d hcd])

theorem rewriteDistinct_rewriteDistinct (term : Term Rat) :
    (rewriteDistinct f term).bind (rewriteDistinct g) =
      rewriteDistinct (fun c => (f c).elim g .inr) term := by
  calc (rewriteDistinct f term).bind (rewriteDistinct g)
      = (rewrite f term).bind fun t => rewriteDistinct g t.eraseDups := by
        rw [rewriteDistinct, Option.bind_map]
        rfl
    _ = (rewrite f term).bind (rewriteDistinct g) := by
        congr 1
        funext t
        exact rewriteDistinct_eraseDups hg t
    _ = ((rewrite f term).bind (rewrite g)).map (·.eraseDups) := by
        rw [Option.map_bind]
        rfl
    _ = rewriteDistinct (fun c => (f c).elim g .inr) term := by
        rw [rewrite_rewrite, rewriteDistinct]

end Again

end Term

/-! ### Normal forms -/

namespace Dnf

section

variable {K : Type} [Scalar K]

/-- The normal form of terms in which nothing is left to decide. -/
def collapse (terms : List (Term K)) : Dnf K :=
  if terms.any (·.isEmpty) then verum else terms.eraseDups

/-- A normal form with its clauses rewritten. -/
def rewrite (f : Clause K → Clause K ⊕ Bool) (d : Dnf K) : Dnf K :=
  collapse (d.filterMap (Term.rewriteDistinct f))

variable {f g : Clause K → Clause K ⊕ Bool}

theorem rewrite_congr {d : Dnf K} (h : d.Within fun c => f c = g c) :
    d.rewrite f = d.rewrite g := by
  rw [rewrite, rewrite]
  refine congrArg collapse (List.filterMap_congr ?_)
  intro term hterm
  rw [Term.rewriteDistinct, Term.rewriteDistinct, Term.rewrite_congr (h term hterm)]

theorem isEmpty_eraseDups (term : Term K) : term.eraseDups.isEmpty = term.isEmpty := by
  cases term with
  | nil => rfl
  | cons c term => rw [List.eraseDups_cons]; rfl

/-- The terms that are left are collapsed without the repetitions in each of them. -/
theorem rewrite_eq (d : Dnf K) : d.rewrite f =
    if (d.filterMap (Term.rewrite f)).any (·.isEmpty) then verum
    else ((d.filterMap (Term.rewrite f)).map (·.eraseDups)).eraseDups := by
  have hempty : ((d.filterMap (Term.rewrite f)).map (·.eraseDups)).any (·.isEmpty) =
      (d.filterMap (Term.rewrite f)).any (·.isEmpty) := by
    rw [List.any_map]
    refine List.any_congr rfl ?_
    intro term
    exact isEmpty_eraseDups term
  have hterms : d.filterMap (Term.rewriteDistinct f) =
      (d.filterMap (Term.rewrite f)).map (·.eraseDups) :=
    List.map_filterMap.symm
  rw [rewrite, hterms, collapse, hempty]

end

/-! ### Rewriting once more -/

section Again

variable {f g : Clause Rat → Clause Rat ⊕ Bool}

/-- Terms may be collapsed before a step that treats equal terms alike and keeps the empty one. -/
theorem collapse_filterMap_collapse {step : Term Rat → Option (Term Rat)}
    (hnil : step [] = some []) (hstep : ∀ s t, (s == t) = true → step s = step t)
    (terms : List (Term Rat)) :
    collapse ((collapse terms).filterMap step) = collapse (terms.filterMap step) := by
  cases hany : terms.any (·.isEmpty) with
  | true =>
    obtain ⟨term, hterm, hempty⟩ := List.any_eq_true.mp hany
    obtain rfl := List.isEmpty_iff.mp hempty
    have hmem : [] ∈ terms.filterMap step := List.mem_filterMap.mpr ⟨[], hterm, hnil⟩
    have htrue : (terms.filterMap step).any (·.isEmpty) = true :=
      List.any_eq_true.mpr ⟨[], hmem, rfl⟩
    rw [collapse, collapse, collapse, if_pos hany, if_pos htrue, verum,
      List.filterMap_cons_some hnil]
    rfl
  | false =>
    have hcollapse : collapse terms = terms.eraseDups := by
      rw [collapse, hany]
      rfl
    have hempty : (terms.eraseDups.filterMap step).any (·.isEmpty) =
        (terms.filterMap step).any (·.isEmpty) := by
      rw [List.any_filterMap, List.any_filterMap]
      exact any_eraseDups (fun s t hst => by rw [hstep s t hst]) terms
    rw [hcollapse, collapse, collapse, hempty, eraseDups_filterMap_eraseDups hstep]

/-- **Two steps are one.** A second step that treats equal clauses alike gives the normal form that
both steps give together. -/
theorem rewrite_rewrite (hg : ∀ c d, (c == d) = true → g c = g d) (d : Dnf Rat) :
    (d.rewrite f).rewrite g = d.rewrite fun c => (f c).elim g .inr := by
  have hstep : ∀ s t : Term Rat, (s == t) = true →
      Term.rewriteDistinct g s = Term.rewriteDistinct g t := by
    intro s t hst
    rw [Term.rewriteDistinct, Term.rewriteDistinct, Term.rewrite_eq_of_beq hg hst]
  have hnil : Term.rewriteDistinct g [] = some [] := rfl
  rw [rewrite, rewrite, collapse_filterMap_collapse hnil hstep, List.filterMap_filterMap, rewrite]
  refine congrArg collapse (List.filterMap_congr ?_)
  intro term _
  exact Term.rewriteDistinct_rewriteDistinct hg term

end Again

/-! ### Truth -/

section Truth

variable {f : Clause Rat → Clause Rat ⊕ Bool} {cmp : Comparison} {v : Valuation}

theorem eval_collapse (terms : List (Term Rat)) :
    (collapse terms).eval cmp v = eval cmp v terms := by
  rw [collapse]
  split
  · next hany =>
    obtain ⟨term, hterm, hempty⟩ := List.any_eq_true.mp hany
    obtain rfl := List.isEmpty_iff.mp hempty
    rw [eval_verum, eq_comm, eval_eq_true]
    exact ⟨[], hterm, List.forall_mem_nil _⟩
  · exact any_eraseDups (fun s t h => Term.eval_congr cmp v h) terms

/-- A term keeps its truth value when its clauses do; a term that is dropped was false. -/
theorem eval_rewriteTerm {term : Term Rat}
    (h : ∀ c ∈ term, (f c).elim (Clause.eval cmp v) id = c.eval cmp v) :
    ((Term.rewrite f term).any fun t => t.all (Clause.eval cmp v)) =
      term.all (Clause.eval cmp v) := by
  induction term with
  | nil => rfl
  | cons c term ih =>
    obtain ⟨hc, hterm⟩ := List.forall_mem_cons.mp h
    rw [List.all_cons, ← hc, ← ih hterm, Term.rewrite]
    cases f c with
    | inr b =>
      cases b with
      | false => rfl
      | true => rfl
    | inl d =>
      cases Term.rewrite f term with
      | none => exact (Bool.and_false _).symm
      | some kept => rfl

/-- A normal form keeps its truth value when its clauses do. -/
theorem eval_rewrite {d : Dnf Rat}
    (h : d.Within fun c => (f c).elim (Clause.eval cmp v) id = c.eval cmp v) :
    (d.rewrite f).eval cmp v = d.eval cmp v := by
  rw [rewrite, eval_collapse, eval, eval, List.any_filterMap, Bool.eq_iff_iff, List.any_eq_true,
    List.any_eq_true]
  refine exists_congr fun term => and_congr_right fun hterm => ?_
  rw [← eval_rewriteTerm (h term hterm), Term.rewriteDistinct]
  cases Term.rewrite f term with
  | none => exact Iff.rfl
  | some kept =>
    have hkept : kept.eraseDups.all (Clause.eval cmp v) = kept.all (Clause.eval cmp v) :=
      all_eraseDups (fun c d hcd => Clause.eval_congr cmp v hcd) kept
    rw [Option.any_some, ← hkept]
    exact Iff.rfl

end Truth

/-! ### Reducing -/

section Reduce

variable {K : Type} [Scalar K]

theorem reduceTerm_eq_rewrite (term : Term K) :
    reduceTerm term = Term.rewrite Clause.settle term := by
  rw [reduceTerm, Term.rewrite_eq, ← List.filterMap_eq_filter]
  simp only [Clause.getRight?_settle, Clause.getLeft?_settle]

/-- Reducing decides constants. -/
theorem reduce_eq_rewrite (d : Dnf K) : d.reduce = d.rewrite Clause.settle := by
  rw [rewrite_eq, ← funext reduceTerm_eq_rewrite]
  rfl

end Reduce

end Dnf

/-! ### Plugging in is rewriting -/

namespace Clause

variable {c c' : Clause Rat} {values : Assignment Rat} {tol : Rat}

/-- What is left of a clause when values are plugged in; false if that fails. -/
def remainder (values : Assignment Rat) (tol : Rat) (c : Clause Rat) : Clause Rat ⊕ Bool :=
  (c.substitute values tol).toOption.getD (.inr false)

/-- What is left of a clause when values are plugged in and constants are decided. -/
def plugged (values : Assignment Rat) (tol : Rat) (c : Clause Rat) : Clause Rat ⊕ Bool :=
  (c.remainder values tol).elim settle .inr

theorem remainder_eq {out : Clause Rat ⊕ Bool} (h : c.substitute values tol = .ok out) :
    c.remainder values tol = out := by
  rw [remainder, h]
  rfl

theorem plugged_eq {out : Clause Rat ⊕ Bool} (h : c.substitute values tol = .ok out) :
    c.plugged values tol = out.elim settle .inr := by
  rw [plugged, remainder_eq h]

/-- The same becomes of equal clauses; of data that are no clause, nothing. -/
theorem plugged_eq_of_beq (h : (c == c') = true) :
    c.plugged values tol = c'.plugged values tol := by
  cases c with
  | linear l =>
    have hl : (linear l).IsProper := trivial
    rw [eq_of_beq hl h]
  | membership m =>
    have hm : (membership m : Clause Rat).IsProper := trivial
    rw [eq_of_beq hm h]
  | foreign d =>
    cases c' with
    | linear l => cases h
    | membership m => cases h
    | foreign d' => rfl

end Clause

namespace Dnf

variable {d : Dnf Rat} {term : Term Rat} {values : Assignment Rat} {tol : Rat}

theorem substituteTerm_eq_rewrite (hterm : ∀ c ∈ term, c.IsProper)
    (h : values.IsNumericOn (term.flatMap Clause.uses)) :
    substituteTerm values tol term = .ok (Term.rewrite (Clause.remainder values tol) term) := by
  induction term with
  | nil => rfl
  | cons c term ih =>
    obtain ⟨hc, hterm⟩ := List.forall_mem_cons.mp hterm
    obtain ⟨out, hout⟩ : ∃ out, c.substitute values tol = .ok out :=
      Clause.exists_substitute hc (h.mono (List.subset_append_left _ _))
    have hrest := ih hterm (h.mono (List.subset_append_right _ _))
    rw [substituteTerm, Term.rewrite, hout, Outcome.ok_bind, Clause.remainder_eq hout, hrest]
    cases out with
    | inl c' => rfl
    | inr b =>
      cases b with
      | false => rfl
      | true => rfl

/-- Plugging in rewrites every clause. -/
theorem substitute_eq_rewrite (hd : d.Within Clause.IsProper)
    (h : values.IsNumericOn (d.flatten.flatMap Clause.uses)) :
    d.substitute values tol = .ok (d.rewrite (Clause.plugged values tol)) := by
  have hterms : d.mapM (substituteTerm values tol) =
      .ok (d.map (Term.rewrite (Clause.remainder values tol))) :=
    Outcome.mapM_eq_map fun term hterm =>
      substituteTerm_eq_rewrite (hd term hterm) (h.mono (uses_term_subset hterm))
  have hreduce : reduce (d.filterMap (Term.rewrite (Clause.remainder values tol))) =
      d.rewrite (Clause.plugged values tol) := by
    rw [reduce_eq_rewrite, rewrite_eq, rewrite_eq, List.filterMap_filterMap]
    have hboth : ∀ term : Term Rat, (Term.rewrite (Clause.remainder values tol) term).bind
        (Term.rewrite Clause.settle) = Term.rewrite (Clause.plugged values tol) term :=
      fun term => Term.rewrite_rewrite term
    simp only [hboth]
  rw [substitute, hterms, Outcome.ok_bind, List.filterMap_map, ← hreduce]
  rfl

end Dnf

end RuleAudit
