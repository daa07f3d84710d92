import RuleAudit.Proofs.Dnf.Clausewise

/-!
# Plugging values in step by step

Plugging in some values and then others gives the same normal form, term for term, as plugging in
all of them at once, whatever the slack (`Dnf.exists_substitute_stepwise`). Rewriting in two steps
is rewriting in one, so only a single clause has to be followed: both ways move the same amount to
its right side and keep the same terms, decide it with the slack once its last variable has a value,
and without when it never had any. Values of the first step go before those of the second, hence
the order of the steps does not matter when they are about different variables.
-/

namespace RuleAudit

/-! ### Linear clauses -/

namespace LinearClause

variable {l : LinearClause Rat} {values first second : Assignment Rat} {rhs : Rat}

/-- Nothing moves when no variable has a value. -/
theorem residue_of_free (h : ∀ n ∈ l.vars, Assoc.get? n values = none) :
    l.residue values = .ok l.rhs := by
  have hstep : ∀ t ∈ l.terms, plug values l.rhs t = .ok l.rhs := by
    intro t ht
    rw [plug, h t.1 (List.mem_map_of_mem ht)]
    rfl
  rw [residue_eq_foldlM]
  generalize l.rhs = start at hstep ⊢
  generalize l.terms = terms at hstep ⊢
  induction terms with
  | nil => rfl
  | cons t terms ih =>
    obtain ⟨ht, hterms⟩ := List.forall_mem_cons.mp hstep
    rw [List.foldlM_cons, ht, Outcome.ok_bind, ih hterms]

theorem leftover_of_free (h : ∀ n ∈ l.vars, Assoc.get? n values = none) :
    l.leftover values l.rhs = l := by
  have hterms : l.terms.filter (fun t => !Assoc.has t.1 values) = l.terms := by
    refine List.filter_eq_self.mpr ?_
    intro t ht
    rw [Assoc.has_eq_isSome, h t.1 (List.mem_map_of_mem ht)]
    rfl
  rw [leftover, restrict]
  congr

/-- The same terms are left when the values come in two steps. -/
theorem leftover_leftover (rhs' : Rat) :
    (l.leftover first rhs).leftover second rhs' = l.leftover (first ++ second) rhs' := by
  have hterms : (l.terms.filter fun t => !Assoc.has t.1 first).filter
      (fun t => !Assoc.has t.1 second) =
        l.terms.filter fun t => !Assoc.has t.1 (first ++ second) := by
    rw [List.filter_filter]
    refine List.filter_congr ?_
    intro t _
    rw [Assoc.has, Assoc.has, Assoc.has, List.any_append, Bool.not_or, Bool.and_comm]
  rw [leftover, leftover, leftover, restrict, restrict, restrict]
  congr

/-- An assignment has the numbers of a part of it. -/
theorem matches_linear {a b : Assignment Rat}
    (hget : ∀ u ∈ (Clause.linear l).uses, ∀ x, Assoc.get? u.1 b = some x →
      Assoc.get? u.1 a = some x)
    (hnumeric : b.IsNumericOn (Clause.linear l).uses) :
    a.valuation.Matches b (Clause.linear l).uses := by
  refine Assignment.matches_of_get? hget hnumeric ?_
  intro u hu hkind
  obtain ⟨n, -, rfl⟩ := List.mem_map.mp hu
  cases hkind

/-- The same amount has moved to the right side when the values come in two steps. -/
theorem exists_residue_append (hfirst : first.IsNumericOn (Clause.linear l).uses)
    (hsecond : second.IsNumericOn (Clause.linear l).uses) :
    ∃ rhs rhs', l.residue first = .ok rhs ∧ (l.leftover first rhs).residue second = .ok rhs' ∧
      l.residue (first ++ second) = .ok rhs' := by
  have hboth := hfirst.append hsecond
  have hleft : ∀ rhs, second.IsNumericOn (Clause.linear (l.leftover first rhs)).uses := by
    intro rhs
    exact hsecond.mono fun u hu => (uses_leftover hu).1
  obtain ⟨rhs, hrhs⟩ := l.exists_residue fun n hn => hfirst n (List.mem_map_of_mem hn)
  obtain ⟨rhs', hrhs'⟩ := (l.leftover first rhs).exists_residue fun n hn =>
    hleft rhs n (List.mem_map_of_mem hn)
  obtain ⟨moved, hmoved⟩ := l.exists_residue fun n hn => hboth n (List.mem_map_of_mem hn)
  refine ⟨rhs, rhs', hrhs, hrhs', ?_⟩
  -- one valuation has all the values, and each step balances the two sides there
  have hfirstMatches : (first ++ second).valuation.Matches first (Clause.linear l).uses :=
    matches_linear (fun u _ x hx => Assoc.get?_append_of_some hx second) hfirst
  have hsecondMatches : (first ++ second).valuation.Matches second
      (Clause.linear (l.leftover first rhs)).uses := by
    refine matches_linear ?_ (hleft rhs)
    intro u hu x hx
    rwa [Assoc.get?_append_of_none (uses_leftover hu).2]
  have hbothMatches : (first ++ second).valuation.Matches (first ++ second)
      (Clause.linear l).uses :=
    matches_linear (fun u _ x hx => hx) hboth
  have hfirstBalance := residue_eq hrhs hfirstMatches
  have hsecondBalance := residue_eq hrhs' hsecondMatches
  have hbalance := residue_eq hmoved hbothMatches
  rw [leftover_leftover] at hsecondBalance
  have hright : (l.leftover first rhs).rhs = rhs := rfl
  have hsum : (l.leftover (first ++ second) rhs').sumAt (first ++ second).valuation =
      (l.leftover (first ++ second) moved).sumAt (first ++ second).valuation := rfl
  obtain rfl : rhs' = moved := by linarith
  exact hmoved

end LinearClause

/-! ### Clauses -/

namespace Clause

variable {c : Clause Rat} {values first second : Assignment Rat} {tol : Rat}

theorem plugged_membership (m : MembershipClause) :
    (membership m).plugged values tol = match Assoc.get? m.subject values with
      | none => (membership m).settle
      | some x => .inr (m.labels.contains x.label != m.negated) := by
  rw [plugged, remainder, substitute]
  cases Assoc.get? m.subject values with
  | none => rfl
  | some x => rfl

theorem settle_linear (l : LinearClause Rat) :
    (linear l).settle =
      if l.terms = [] then .inr (l.relation.holds 0 l.rhs 0) else .inl (linear l) := by
  by_cases hnone : l.terms = []
  · have hconstant : (linear l).constant? = some (l.relation.holds 0 l.rhs 0) :=
      if_pos (List.isEmpty_iff.mpr hnone)
    rw [settle_of_constant? hconstant, if_pos hnone]
  · have hopen : (linear l).constant? = none := if_neg (mt List.isEmpty_iff.mp hnone)
    rw [settle_of_open hopen, if_neg hnone]

/-- A clause without variables is decided as it is, one without variables left with the slack. -/
theorem plugged_linear {l : LinearClause Rat} {rhs : Rat} (hrhs : l.residue values = .ok rhs) :
    (linear l).plugged values tol =
      if l.terms = [] then .inr (l.relation.holds 0 l.rhs 0)
      else if (l.leftover values rhs).terms = [] then .inr (l.relation.holds 0 rhs tol)
      else .inl (linear (l.leftover values rhs)) := by
  cases hany : l.vars.any (Assoc.has · values) with
  | false =>
    have hfree : ∀ n ∈ l.vars, Assoc.get? n values = none := by
      intro n hn
      have hhas := List.any_eq_false.mp hany n hn
      rwa [Assoc.has_eq_isSome, Option.not_isSome_iff_eq_none] at hhas
    have hsub : (linear l).substitute values tol = .ok (.inl (linear l)) := by
      rw [substitute, hany]
      rfl
    obtain rfl : l.rhs = rhs :=
      Except.ok.inj ((LinearClause.residue_of_free hfree).symm.trans hrhs)
    rw [plugged_eq hsub, Sum.elim_inl, settle_linear, LinearClause.leftover_of_free hfree]
    split
    · rfl
    · rfl
  | true =>
    have hsome : l.terms ≠ [] := by
      intro hnone
      rw [LinearClause.vars, hnone] at hany
      cases hany
    rw [if_neg hsome]
    by_cases hall : l.vars.all (Assoc.has · values) = true
    · have hsub : (linear l).substitute values tol = .ok (.inr (l.relation.holds 0 rhs tol)) := by
        rw [substitute, if_pos hany, hrhs, Outcome.ok_bind, if_pos hall]
        rfl
      rw [plugged_eq hsub, if_pos ((LinearClause.leftover_eq_nil_iff rhs).mpr hall), Sum.elim_inr]
    · have hsub : (linear l).substitute values tol =
          .ok (.inl (linear (l.leftover values rhs))) := by
        rw [substitute, if_pos hany, hrhs, Outcome.ok_bind, if_neg hall, LinearClause.rebuild_eq]
        rfl
      have hleft : (l.leftover values rhs).terms ≠ [] :=
        mt (LinearClause.leftover_eq_nil_iff rhs).mp hall
      rw [plugged_eq hsub, Sum.elim_inl, settle_linear, if_neg hleft, if_neg hleft]

theorem plugged_plugged_linear {l : LinearClause Rat}
    (hfirst : first.IsNumericOn (linear l).uses) (hsecond : second.IsNumericOn (linear l).uses) :
    ((linear l).plugged first tol).elim (plugged second tol) .inr =
      (linear l).plugged (first ++ second) tol := by
  obtain ⟨rhs, rhs', hrhs, hrhs', hboth⟩ := LinearClause.exists_residue_append hfirst hsecond
  rw [plugged_linear hrhs, plugged_linear hboth, ← LinearClause.leftover_leftover rhs']
  by_cases hnone : l.terms = []
  · rw [if_pos hnone, if_pos hnone, Sum.elim_inr]
  rw [if_neg hnone, if_neg hnone]
  by_cases hdone : (l.leftover first rhs).terms = []
  · -- the second step has nothing left to move
    have hfree : ∀ n ∈ (l.leftover first rhs).vars, Assoc.get? n second = none := by
      intro n hn
      rw [LinearClause.vars, hdone] at hn
      cases hn
    obtain rfl : rhs = rhs' :=
      Except.ok.inj ((LinearClause.residue_of_free hfree).symm.trans hrhs')
    have hempty : ((l.leftover first rhs).leftover second rhs).terms = [] :=
      (congrArg LinearClause.terms (LinearClause.leftover_of_free hfree)).trans hdone
    rw [if_pos hdone, if_pos hempty, Sum.elim_inr]
  · rw [if_neg hdone, Sum.elim_inl, plugged_linear hrhs', if_neg hdone]
    rfl

theorem plugged_plugged_membership (m : MembershipClause) :
    ((membership m).plugged first tol).elim (plugged second tol) .inr =
      (membership m).plugged (first ++ second) tol := by
  rw [plugged_membership, plugged_membership, Assoc.get?_append]
  cases Assoc.get? m.subject first with
  | some x => rfl
  | none =>
    dsimp only [Option.or]
    cases hconstant : (membership m : Clause Rat).constant? with
    | none =>
      rw [settle_of_open hconstant, Sum.elim_inl, plugged_membership, settle_of_open hconstant]
    | some b =>
      rw [settle_of_constant? hconstant, Sum.elim_inr]
      cases Assoc.get? m.subject second with
      | none => rfl
      | some x =>
        -- a clause that is decided early has the same truth value for every label
        have hvalue : (m.labels.contains x.label != m.negated) = b :=
          eval_of_constant? hconstant ⟨fun _ => 0, fun _ => some x.label⟩
        exact congrArg Sum.inr hvalue.symm

/-- The same becomes of a clause when the values come in two steps. -/
theorem plugged_plugged (hc : c.IsProper) (hfirst : first.IsNumericOn c.uses)
    (hsecond : second.IsNumericOn c.uses) :
    (c.plugged first tol).elim (plugged second tol) .inr = c.plugged (first ++ second) tol := by
  cases c with
  | linear l => exact plugged_plugged_linear hfirst hsecond
  | membership m => exact plugged_plugged_membership m
  | foreign d => cases hc

end Clause

/-- Only what is found under the names matters. -/
theorem Clause.substitute_congr {c : Clause Rat} {values values' : Assignment Rat} {tol : Rat}
    (h : ∀ n, Assoc.get? n values = Assoc.get? n values') :
    c.substitute values tol = c.substitute values' tol := by
  cases c with
  | linear l =>
    have hhas : (fun n => Assoc.has n values) = fun n => Assoc.has n values' := by
      funext n
      rw [Assoc.has_eq_isSome, Assoc.has_eq_isSome, h n]
    have hplug : LinearClause.plug values = LinearClause.plug values' := by
      funext rhs t
      rw [LinearClause.plug, LinearClause.plug, h t.1]
    have hresidue : l.residue values = l.residue values' := by
      rw [LinearClause.residue_eq_foldlM, LinearClause.residue_eq_foldlM, hplug]
    have hnot : (fun n => !Assoc.has n values) = fun n => !Assoc.has n values' := by
      funext n
      exact congrArg Bool.not (congrFun hhas n)
    rw [substitute, substitute, hhas, hresidue, hnot]
  | membership m => rw [substitute, substitute, h m.subject]
  | foreign d => rfl

/-! ### Normal forms -/

namespace Dnf

variable {d : Dnf Rat} {first second : Assignment Rat} (tol : Rat)

/-- Two steps give what all values together give. -/
theorem exists_substitute_append (hd : d.Within Clause.IsProper)
    (hfirst : first.IsNumericOn (d.flatten.flatMap Clause.uses))
    (hsecond : second.IsNumericOn (d.flatten.flatMap Clause.uses)) :
    ∃ mid d', d.substitute first tol = .ok mid ∧ mid.substitute second tol = .ok d' ∧
      d.substitute (first ++ second) tol = .ok d' := by
  obtain ⟨mid, hmid⟩ : ∃ mid, d.substitute first tol = .ok mid := exists_substitute hd hfirst
  have hleft : second.IsNumericOn (mid.flatten.flatMap Clause.uses) :=
    hsecond.mono fun u hu => (uses_of_substitute hmid u hu).1
  have hmidEq : mid = d.rewrite (Clause.plugged first tol) :=
    Except.ok.inj (hmid.symm.trans (substitute_eq_rewrite hd hfirst))
  refine ⟨mid, mid.rewrite (Clause.plugged second tol), hmid,
    substitute_eq_rewrite (isProper_of_substitute hmid) hleft, ?_⟩
  rw [substitute_eq_rewrite hd (hfirst.append hsecond), hmidEq,
    rewrite_rewrite (fun _ _ => Clause.plugged_eq_of_beq) d]
  refine congrArg Except.ok (rewrite_congr ?_)
  intro term hterm c hc
  have huses := uses_clause_subset hterm hc
  exact (Clause.plugged_plugged (hd term hterm c hc) (hfirst.mono huses)
    (hsecond.mono huses)).symm

variable {tol} in
theorem substitute_congr (h : ∀ n, Assoc.get? n first = Assoc.get? n second) :
    d.substitute first tol = d.substitute second tol := by
  have hterms : substituteTerm first tol = substituteTerm second tol := by
    funext term
    induction term with
    | nil => rfl
    | cons c term ih => rw [substituteTerm, substituteTerm, Clause.substitute_congr h, ih]
  rw [substitute, substitute, hterms]

end Dnf

/-- **The order of plugging in does not matter.** Plugging readable values into a normal form of
clauses, with any slack, gives the same in one step and in two; when the steps are about different
variables, either may come first. -/
theorem Dnf.exists_substitute_stepwise {d : Dnf Rat} {first second : Assignment Rat} (tol : Rat)
    (hd : d.Within Clause.IsProper)
    (hfirst : first.IsNumericOn (d.flatten.flatMap Clause.uses))
    (hsecond : second.IsNumericOn (d.flatten.flatMap Clause.uses))
    (hdisjoint : (first.map (·.1)).Disjoint (second.map (·.1))) :
    ∃ d', d.substitute (first ++ second) tol = .ok d' ∧
      (d.substitute first tol >>= fun mid => mid.substitute second tol) = .ok d' ∧
      (d.substitute second tol >>= fun mid => mid.substitute first tol) = .ok d' := by
  obtain ⟨mid, d', hmid, hd', hboth⟩ := exists_substitute_append tol hd hfirst hsecond
  obtain ⟨mid', d'', hmid', hd'', hswapped⟩ := exists_substitute_append tol hd hsecond hfirst
  have hsame : d.substitute (first ++ second) tol = d.substitute (second ++ first) tol :=
    substitute_congr (Assoc.get?_append_comm hdisjoint)
  obtain rfl : d' = d'' := Except.ok.inj (hboth.symm.trans (hsame.trans hswapped))
  exact ⟨d', hboth, Outcome.bind_eq_ok.mpr ⟨mid, hmid, hd'⟩,
    Outcome.bind_eq_ok.mpr ⟨mid', hmid', hd''⟩⟩

/-- Two terms become equal in the first step and a third one is dropped in the second. -/
theorem Dnf.exists_substitute_stepwise_sum :
    let sum : Clause Rat :=
      .linear (.canonical [(⟨"x", by decide⟩, 2), (⟨"y", by decide⟩, 1)] .le 5)
    let twice : Clause Rat :=
      .linear (.canonical [(⟨"x", by decide⟩, 4), (⟨"y", by decide⟩, 1)] .le 9)
    let red : Clause Rat := .membership (.ofLabels ⟨"color", by decide⟩ ["red"] false)
    let d : Dnf Rat := [[sum], [twice], [sum, red]]
    let first : Assignment Rat := [("x", .int 2)]
    let second : Assignment Rat := [("color", .text "blue")]
    d.Within Clause.IsProper ∧ first.IsNumericOn (d.flatten.flatMap Clause.uses) ∧
      second.IsNumericOn (d.flatten.flatMap Clause.uses) ∧
      (first.map (·.1)).Disjoint (second.map (·.1)) ∧
      ∃ mid d', d.substitute first 0 = .ok mid ∧ mid.length = 2 ∧
        d.substitute (first ++ second) 0 = .ok d' ∧ d'.length = 1 ∧
        mid.substitute second 0 = .ok d' ∧
        (d.substitute second 0 >>= fun mid => mid.substitute first 0) = .ok d' := by
  intro sum twice red d first second
  have huses : d.flatten.flatMap Clause.uses =
      [("x", .numeric), ("y", .numeric), ("x", .numeric), ("y", .numeric), ("x", .numeric),
        ("y", .numeric), ("color", .categorical)] := by
    decide +kernel
  have hd : d.Within Clause.IsProper := by
    have hsum : ∀ c ∈ [sum], c.IsProper := List.forall_mem_singleton.mpr trivial
    have htwice : ∀ c ∈ [twice], c.IsProper := List.forall_mem_singleton.mpr trivial
    have hred : ∀ c ∈ [sum, red], c.IsProper :=
      List.forall_mem_cons.mpr ⟨trivial, List.forall_mem_singleton.mpr trivial⟩
    exact List.forall_mem_cons.mpr ⟨hsum, List.forall_mem_cons.mpr ⟨htwice,
      List.forall_mem_singleton.mpr hred⟩⟩
  have hnames : ∀ n, (n, VarKind.numeric) ∈ d.flatten.flatMap Clause.uses → n = "x" ∨ n = "y" := by
    rw [huses]
    intro n hn
    simp only [List.mem_cons, Prod.mk.injEq, and_true, reduceCtorEq, and_false, List.not_mem_nil,
      or_false] at hn
    tauto
  have hfirst : first.IsNumericOn (d.flatten.flatMap Clause.uses) := by
    intro n hn x hx
    rcases hnames n hn with rfl | rfl
    · obtain rfl : Datum.int 2 = x := Option.some.inj hx
      exact ⟨2, rfl⟩
    · cases hx
  have hsecond : second.IsNumericOn (d.flatten.flatMap Clause.uses) := by
    intro n hn x hx
    rcases hnames n hn with rfl | rfl
    · cases hx
    · cases hx
  have hdisjoint : (first.map (·.1)).Disjoint (second.map (·.1)) := by
    intro n hfirst hsecond
    obtain rfl : n = "x" := List.mem_singleton.mp hfirst
    have hcolor : "x" = "color" := List.mem_singleton.mp hsecond
    exact absurd hcolor (by decide)
  obtain ⟨d', hboth, hsteps, hswapped⟩ :=
    Dnf.exists_substitute_stepwise 0 hd hfirst hsecond hdisjoint
  obtain ⟨mid, hmid, hd'⟩ := Outcome.bind_eq_ok.mp hsteps
  have hlength : (d.substitute first 0).toOption.any (·.length = 2) = true := by decide +kernel
  rw [hmid] at hlength
  have hlength' : (d.substitute (first ++ second) 0).toOption.any (·.length = 1) = true := by
    decide +kernel
  rw [hboth] at hlength'
  exact ⟨hd, hfirst, hsecond, hdisjoint, mid, d', hmid, of_decide_eq_true hlength, hboth,
    of_decide_eq_true hlength', hd', hswapped⟩

end RuleAudit
