import RuleAudit.Proofs.Dnf.Substitute
import RuleAudit.Proofs.Query.Verdict
import RuleAudit.Rule.Bind

/-!
# Values in rules

A rule uses the variables of its normal form. It is *open* in those that it does not merely pin: a
rule that says nothing but that a variable has one value is closed. Plugging values into a rule
leaves a rule that is open in fewer variables (`Rule.IsPlugged`), tight where the rule was and the
variables have these values; and a pin for a value is tight exactly there.
-/

namespace RuleAudit

/-! ### Variables in use -/

/-- What the normal forms of rules use. -/
def usesIn (rules : List (Rule Rat)) : List (String × VarKind) :=
  (rules.flatMap Rule.clauses).flatMap Clause.uses

theorem mem_usesIn {rules : List (Rule Rat)} {u : String × VarKind} :
    u ∈ usesIn rules ↔ ∃ r ∈ rules, u ∈ r.clauses.flatMap Clause.uses := by
  rw [usesIn, List.flatMap_assoc, List.mem_flatMap]

namespace Rule

variable {r r' : Rule Rat} {d d' : Dnf Rat} {n : String} {L : Lexicon}

/-- The names of the variables of the normal form. -/
def used (r : Rule Rat) : List String :=
  (r.clauses.flatMap Clause.uses).map (·.1)

theorem mem_used : n ∈ r.used ↔ ∃ kind, (n, kind) ∈ r.clauses.flatMap Clause.uses := by
  rw [used, List.mem_map]
  exact ⟨fun ⟨u, hu, hn⟩ => ⟨u.2, hn ▸ hu⟩, fun ⟨kind, h⟩ => ⟨_, h, rfl⟩⟩

/-- The rule says nothing but that the variable has one value. -/
def isPinFor (r : Rule Rat) (n : String) : Bool :=
  isPinOf (r.dnf.toOption.getD []) n

theorem isPinFor_eq (hd : r.dnf = .ok d) (n : String) : r.isPinFor n = isPinOf d n := by
  rw [isPinFor, hd]
  rfl

theorem pins_eq (hd : r.dnf = .ok d) (n : String) : r.pins n = .ok (r.isPinFor n) := by
  rw [pins, hd, isPinFor_eq hd]
  rfl

/-- The variables of the normal form that the rule does not merely pin. -/
def openVars (r : Rule Rat) : List String :=
  r.used.filter fun n => !r.isPinFor n

theorem mem_openVars : n ∈ r.openVars ↔ n ∈ r.used ∧ r.isPinFor n = false := by
  simp [openVars]

private theorem mem_enlist {a : String} {l : List String} :
    n ∈ Assoc.enlist a l ↔ n ∈ l ∨ n = a := by
  rw [Assoc.enlist]
  split
  · next h =>
    refine ⟨.inl, fun hn => hn.elim id ?_⟩
    rintro rfl
    simpa using h
  · simp

private theorem mem_foldl_enlist {names known : List String} :
    n ∈ names.foldl (fun l a => Assoc.enlist a l) known ↔ n ∈ known ∨ n ∈ names := by
  induction names generalizing known with
  | nil => simp
  | cons a names ih => rw [List.foldl_cons, ih, mem_enlist, List.mem_cons, or_assoc]

/-- A rule whose normal form is made of proper clauses has a list of its variables. -/
theorem exists_vars (hd : r.dnf = .ok d) (hproper : d.Within Clause.IsProper) :
    ∃ vars, r.vars = .ok vars ∧ ∀ n, n ∈ vars ↔ n ∈ r.used := by
  obtain ⟨vars, hvars, hmem⟩ : ∃ vars, r.vars = .ok vars ∧
      ∀ n, n ∈ vars ↔ ∃ c ∈ d.flatten, n ∈ c.vars := by
    rw [vars, hd, Outcome.ok_bind]
    refine Outcome.exists_foldlM
      (fun (seen : List (Clause Rat)) (vars : List String) =>
        ∀ n, n ∈ vars ↔ ∃ c ∈ seen, n ∈ c.vars)
      (fun n => by simp) fun seen c vars hseen hvars => ?_
    have hc : c.IsProper := Dnf.within_iff_flatten.mp hproper c (hseen.subset (by simp))
    refine ⟨c.vars.foldl (fun vars v => Assoc.enlist v vars) vars, ?_, fun n => ?_⟩
    · cases c with
      | linear c => rfl
      | membership c => rfl
      | foreign d => cases hc
    · rw [mem_foldl_enlist, hvars n]
      simp [or_and_right, exists_or]
  refine ⟨vars, hvars, fun n => ?_⟩
  rw [hmem, mem_used, clauses_eq hd]
  simp only [List.mem_flatMap, Clause.mem_vars_iff]
  constructor
  · rintro ⟨c, hc, kind, hn⟩
    exact ⟨kind, c, hc, hn⟩
  · rintro ⟨kind, c, hc, hn⟩
    exact ⟨c, hc, kind, hn⟩

theorem Fits.exists_vars (h : r.Fits L) :
    ∃ vars, r.vars = .ok vars ∧ ∀ n, n ∈ vars ↔ n ∈ r.used := by
  obtain ⟨d, hd, hwithin⟩ := h
  exact Rule.exists_vars hd fun term hterm c hc => (hwithin term hterm c hc).1.1

/-- A pin uses the variable, and no other one. -/
theorem used_of_isPinFor (hd : r.dnf = .ok d) (hpin : r.isPinFor n = true) : r.used = [n] := by
  rw [isPinFor_eq hd] at hpin
  rw [used, clauses_eq hd]
  unfold isPinOf at hpin
  split at hpin
  · next c =>
    rw [Bool.and_eq_true, beq_iff_eq] at hpin
    simp [Clause.uses, hpin.2]
  · next c =>
    rw [Bool.and_eq_true, Bool.and_eq_true, beq_iff_eq] at hpin
    simp [Clause.uses, hpin.1.1]
  · cases hpin

/-- A pin is open in no variable. -/
theorem openVars_of_isPinFor (hd : r.dnf = .ok d) (hpin : r.isPinFor n = true) :
    r.openVars = [] := by
  refine List.eq_nil_iff_forall_not_mem.mpr fun m hm => ?_
  obtain ⟨hused, hopen⟩ := mem_openVars.mp hm
  rw [used_of_isPinFor hd hpin, List.mem_singleton] at hused
  rw [hused, hpin] at hopen
  cases hopen

/-! ### Plugging values in -/

/-- What a rule becomes when values are plugged in for the variables that it is open in. -/
structure IsPlugged (values : Assignment Rat) (r r' : Rule Rat) : Prop where
  name : r'.name = r.name
  fits : ∀ L, r.Fits L → r'.Fits L
  categorical : r.IsCategorical → r'.IsCategorical
  uses : r'.clauses.flatMap Clause.uses ⊆ r.clauses.flatMap Clause.uses
  exprUses : r'.expr.uses ⊆ r.expr.uses
  /-- There are no more terms than before. -/
  length_le : ∀ d d', r.dnf = .ok d → r'.dnf = .ok d' → d'.length ≤ d.length
  /-- The rule is open in no variable with a value. -/
  openVars : ∀ n ∈ r'.openVars, n ∈ r.openVars ∧ Assoc.get? n values = none
  /-- A rule that pins a variable with a value did so before. -/
  pinned : ∀ n, r'.isPinFor n = true → Assoc.get? n values ≠ none → r' = r
  unchanged : (∀ n ∈ r.openVars, Assoc.get? n values = none) → r' = r
  tight : ∀ settings v, v.Matches values (r.clauses.flatMap Clause.uses) →
    r.TightAt settings v → r'.TightAt settings v
  tight_of : r.IsCategorical → ∀ settings v,
    v.Matches values (r.clauses.flatMap Clause.uses) → r'.TightAt settings v →
      r.TightAt settings v

theorem isPlugged_self {values : Assignment Rat}
    (h : ∀ n ∈ r.openVars, Assoc.get? n values = none) : IsPlugged values r r where
  name := rfl
  fits _ := id
  categorical := id
  uses := List.Subset.refl _
  exprUses := List.Subset.refl _
  length_le d d' hd hd' := by
    obtain rfl := Except.ok.inj (hd.symm.trans hd')
    exact le_rfl
  openVars n hn := ⟨hn, h n hn⟩
  pinned _ _ _ := rfl
  unchanged _ := rfl
  tight _ _ _ := id
  tight_of _ _ _ _ := id

/-- The rule that is made when some values are plugged in. -/
theorem Fits.exists_substitute (hr : r.Fits L) (values : Assignment Rat) (tol : Rat) {m : String}
    (hm : m ∈ r.used) (hvalue : Assoc.get? m values ≠ none)
    (h : values.IsNumericOn (r.clauses.flatMap Clause.uses)) :
    ∃ d d' r', r.dnf = .ok d ∧ d.substitute values tol = .ok d' ∧
      r.substitute values tol = .ok r' ∧ r'.name = r.name ∧ r'.dnf = .ok d' ∧
      r'.expr = Expr.ofDnf d' := by
  obtain ⟨vars, hvars, hmem⟩ := hr.exists_vars
  obtain ⟨d, hd, hwithin⟩ := hr
  have hproper : d.Within Clause.IsProper := fun term hterm c hc => (hwithin term hterm c hc).1.1
  rw [clauses_eq hd] at h
  obtain ⟨d', hd'⟩ : ∃ d', d.substitute values tol = .ok d' := Dnf.exists_substitute hproper h
  obtain ⟨r', hmade, hname, hdnf, hexpr⟩ :=
    exists_ofDnf r.named (Dnf.isProper_of_substitute hd')
  rw [(Dnf.isReduced_substitute hd').reduce_eq] at hdnf hexpr
  refine ⟨d, d', r', hd, hd', ?_, hname, hdnf, hexpr⟩
  have hany : vars.any (Assoc.has · values) = true :=
    List.any_eq_true.mpr ⟨m, (hmem m).mpr hm, by
      rw [Assoc.has_eq_isSome]
      exact Option.isSome_iff_ne_none.mpr hvalue⟩
  rw [substitute, hvars, Outcome.ok_bind, if_pos hany, hd, Outcome.ok_bind, hd', Outcome.ok_bind]
  exact hmade

/-- The rule that was made by plugging values in fits where the rule did. -/
theorem substitute_fits {values : Assignment Rat} {tol : Rat} (hr : r.Fits L)
    (h : r.substitute values tol = .ok r') :
    r'.Fits L ∧ r'.name = r.name := by
  obtain ⟨vars, -, h⟩ := Outcome.bind_eq_ok.mp h
  obtain ⟨d, hd, hwithin⟩ := id hr
  split at h
  · rw [hd, Outcome.ok_bind] at h
    obtain ⟨d', hd', h⟩ := Outcome.bind_eq_ok.mp h
    have hfits : d'.Within (Clause.Fits L) := fun term hterm c hc => by
      obtain ⟨b, hb, hres⟩ := Dnf.within_substitute hd' term hterm c hc
      exact hres.fits (Dnf.within_iff_flatten.mp hwithin b hb)
    obtain ⟨made, hmade, hname, hdnf, -⟩ :=
      exists_ofDnf r.named fun term hterm c hc => (hfits term hterm c hc).1.1
    obtain rfl := Except.ok.inj (hmade.symm.trans h)
    rw [(Dnf.isReduced_substitute hd').reduce_eq] at hdnf
    exact ⟨⟨d', hdnf, hfits⟩, hname⟩
  · obtain rfl := Except.ok.inj h
    exact ⟨hr, rfl⟩

section Substitute

variable {values bindings : Assignment Rat} {tol : Rat} (hd : r.dnf = .ok d)
  (hd' : d.substitute bindings tol = .ok d') (hdnf : r'.dnf = .ok d')

include hd hd' hdnf

/-- What is left over was used before, and has no value. -/
private theorem uses_of_substitute : ∀ u ∈ r'.clauses.flatMap Clause.uses,
    u ∈ r.clauses.flatMap Clause.uses ∧ Assoc.get? u.1 bindings = none := by
  rw [clauses_eq hdnf, clauses_eq hd]
  exact Dnf.uses_of_substitute hd'

variable (hbindings : ∀ n, Assoc.get? n bindings =
    if n ∈ r.openVars then Assoc.get? n values else none)
  (hsome : ∃ m ∈ r.openVars, Assoc.get? m values ≠ none)

include hbindings hsome

/-- Every variable that is left over was one of those that the rule is open in. -/
private theorem used_of_substitute :
    ∀ n ∈ r'.used, n ∈ r.openVars ∧ Assoc.get? n values = none := by
  intro n hn
  obtain ⟨kind, hn⟩ := mem_used.mp hn
  obtain ⟨hmem, hfree⟩ := uses_of_substitute hd hd' hdnf _ hn
  have hpinned : r.isPinFor n = false := by
    obtain ⟨m, hm, -⟩ := hsome
    rw [Bool.eq_false_iff]
    intro hpin
    rw [openVars_of_isPinFor hd hpin] at hm
    cases hm
  have hopen : n ∈ r.openVars := mem_openVars.mpr ⟨mem_used.mpr ⟨kind, hmem⟩, hpinned⟩
  rw [hbindings, if_pos hopen] at hfree
  exact ⟨hopen, hfree⟩

theorem isPlugged_of_substitute (htol : 0 ≤ tol) (hexpr : r'.expr = Expr.ofDnf d')
    (hname : r'.name = r.name) : IsPlugged values r r' := by
  have hresidue := Dnf.within_iff_flatten.mp (Dnf.within_substitute hd')
  have huses := uses_of_substitute hd hd' hdnf
  have hopen := used_of_substitute hd hd' hdnf hbindings hsome
  have hmatches {v : Valuation} (hv : v.Matches values (r.clauses.flatMap Clause.uses)) :
      v.Matches bindings (d.flatten.flatMap Clause.uses) := by
    rw [clauses_eq hd] at hv
    intro u hu x hx
    rw [hbindings] at hx
    split at hx
    · exact hv u hu x hx
    · cases hx
  refine ⟨hname, fun L hr => ?_, fun hcategorical => ?_, fun u hu => (huses u hu).1,
    fun u hu => ?_, fun e e' he he' => ?_, fun n hn => ?_, fun n hpin hne => ?_,
    fun hnone => ?_, fun settings v hv htight => ?_, fun hcategorical settings v hv htight => ?_⟩
  · refine ⟨d', hdnf, Dnf.within_iff_flatten.mpr fun c' hc' => ?_⟩
    obtain ⟨c, hc, hres⟩ := hresidue c' hc'
    exact hres.fits (Dnf.within_iff_flatten.mp (hr.within hd) c hc)
  · rw [IsCategorical, clauses_eq hdnf]
    intro c' hc'
    obtain ⟨c, hc, hres⟩ := hresidue c' hc'
    refine hres.membership (hcategorical c ?_)
    rwa [clauses_eq hd]
  · rw [hexpr] at hu
    refine uses_dnf_subset hd ?_
    rw [← clauses_eq hd]
    refine (huses u ?_).1
    rw [clauses_eq hdnf]
    exact Expr.uses_ofDnf_subset d' hu
  · obtain rfl := Except.ok.inj (hd.symm.trans he)
    obtain rfl := Except.ok.inj (hdnf.symm.trans he')
    exact Dnf.length_substitute_le hd'
  · exact hopen n (mem_openVars.mp hn).1
  · -- a pin uses its variable, but no variable with a value is left
    refine absurd (hopen n ?_).2 hne
    rw [used_of_isPinFor hdnf hpin]
    exact List.mem_singleton_self n
  · obtain ⟨m, hm, hvalue⟩ := hsome
    exact absurd (hnone m hm) hvalue
  · rw [tightAt_iff hdnf]
    exact Dnf.eval_substitute (isReduced hd) hd' (hmatches hv) settings.epsilon.pos htol
      ((tightAt_iff hd).mp htight)
  · rw [tightAt_iff hd]
    exact Dnf.eval_of_substitute (isReduced hd) hd' (hmatches hv) (hcategorical.within hd)
      ((tightAt_iff hdnf).mp htight)

end Substitute

end Rule

end RuleAudit
