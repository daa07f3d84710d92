import RuleAudit.Proofs.Query.Outcomes
import RuleAudit.Proofs.RuleSet
import RuleAudit.Query.Contradiction
import RuleAudit.Query.Simplify

/-!
# How queries end

Every question about a set of rules ends with its answer or in one of the ways in which a single
solve can go wrong, or because rules are counted up to a limit that is no integer. A simplified set
is made of clauses again, so the next question about it can be asked; and a simplification may also
be given up after too many rounds.
-/

namespace RuleAudit

open Outcome

variable {K : Type} [Scalar K]

namespace Oracle

variable {o : Oracle K} {s : RuleSet K} {name : String}

/-! ### Rules to blame -/

theorem failsOnly_first {α : Type} {test : α → Except (Error K) Bool} {items : List α}
    (h : ∀ a ∈ items, FailsOnly o.Fails (test a)) : FailsOnly o.Fails (o.first test items) := by
  refine failsOnly_ite (fun _ => failsOnly_findM? h) fun _ => ?_
  exact (failsOnly_mapM fun a ha => (h a ha).map _).map _

section Queries

variable (ho : o.solver.IsComplete)

include ho

theorem failsOnly_relax (rules : List (Rule K)) : FailsOnly o.Fails (o.relax rules) := by
  induction rules with
  | nil => exact failsOnly_ok _
  | cons r rules ih => exact (failsOnly_feasible ho _ _).test (failsOnly_ok _) (ih.map _)

theorem failsOnly_takeBack (s : RuleSet K) (active : List String) (dropped : List (Rule K)) :
    FailsOnly o.Fails (o.takeBack s active dropped) := by
  induction dropped generalizing active with
  | nil => exact failsOnly_ok _
  | cons r dropped ih => exact (failsOnly_feasible ho _ _).test (ih _) ((ih active).map _)

theorem failsOnly_removable (s : RuleSet K) (sizes : List Nat) :
    FailsOnly o.Fails (o.removable s sizes) := by
  induction sizes with
  | nil => exact failsOnly_ok _
  | cons size sizes ih =>
    refine (failsOnly_first fun _ _ => failsOnly_feasible ho _ _).bind fun found _ => ?_
    cases found with
    | some names => exact failsOnly_ok _
    | none => exact ih

theorem failsOnly_culprits (s : RuleSet K) : FailsOnly o.Fails (o.culprits s) := by
  refine (failsOnly_isFeasible ho s).test (failsOnly_ok _) ?_
  have hcount : FailsOnly o.Fails (o.settings.removals s.size) := fun _ => .uncounted
  refine hcount.bind fun most _ => ?_
  refine (failsOnly_removable ho s _).bind fun found _ => ?_
  cases found with
  | some names => exact failsOnly_ok _
  | none => exact (failsOnly_relax ho _).bind fun _ _ => failsOnly_takeBack ho _ _ _

/-! ### Contradictions -/

theorem failsOnly_shrink (target : Rule K) (kept rules : List (Rule K)) :
    FailsOnly o.Fails (o.shrink target kept rules) := by
  induction rules generalizing kept with
  | nil => exact failsOnly_ok _
  | cons r rules ih => exact (failsOnly_feasible ho _ _).test (ih _) (ih _)

theorem failsOnly_jointConflict (target : Rule K) (rules : List (Rule K)) :
    FailsOnly o.Fails (o.jointConflict target rules) := by
  refine failsOnly_ite (fun _ => failsOnly_ok _) fun _ => ?_
  refine (failsOnly_feasible ho _ _).test (failsOnly_ok _) ?_
  refine (failsOnly_shrink ho _ _ _).bind fun _ _ => ?_
  refine failsOnly_ite (fun _ => failsOnly_ok _) fun _ => ?_
  exact (failsOnly_feasible ho _ _).test (failsOnly_ok _) (failsOnly_ok _)

theorem failsOnly_settle (target : Rule K) (rules : List (Rule K)) :
    FailsOnly o.Fails (o.settle target rules) := by
  refine failsOnly_ite (fun _ => failsOnly_ok _) fun _ => ?_
  refine (failsOnly_feasible ho _ _).test (failsOnly_ok _) ?_
  refine ((RuleSet.failsOnly_ofList rules).mono fun _ => .of_isDefinition).bind fun t _ => ?_
  exact ((failsOnly_culprits ho t).map _).map _

theorem failsOnly_contradictedBy (hname : s.contains name = true) :
    FailsOnly o.Fails (o.contradictedBy s name).outcome := by
  obtain ⟨target, htarget, -⟩ := RuleSet.exists_item hname
  rw [contradictedBy, Reported.outcome_bind]
  simp only [Reported.outcome_monadLift, htarget, ok_bind, Reported.outcome_bind]
  refine (failsOnly_feasible ho _ _).bind fun alone _ => ?_
  cases alone with
  | false => exact failsOnly_ok _
  | true =>
    refine (ends_filterM fun r _ => failsOnly_feasible ho _ _).failsOnly.bind fun candidates _ => ?_
    refine (ends_filterM fun r _ => failsOnly_feasible ho _ _).failsOnly.bind fun compatible _ => ?_
    refine (failsOnly_settle ho _ _).bind fun settled _ => ?_
    exact (failsOnly_jointConflict ho _ _).map _

/-! ### Implication and redundancy -/

theorem failsOnly_impliedBy (hname : s.contains name = true) :
    FailsOnly o.Fails (o.impliedBy s name) := by
  obtain ⟨target, htarget, -⟩ := RuleSet.exists_item hname
  rw [impliedBy, htarget]
  refine (target.ends_opposite.failsOnly.mono fun _ => .of_isDefinition).bind fun opposite _ => ?_
  refine FailsOnly.map (ends_filterM fun r _ => ?_).failsOnly _
  exact (failsOnly_feasible ho _ _).map _

theorem failsOnly_isRedundant (others : List (Rule K)) (r : Rule K) :
    FailsOnly o.Fails (o.isRedundant others r) := by
  refine (failsOnly_isTautology r).test (failsOnly_ok _) ?_
  refine (r.ends_opposite.failsOnly.mono fun _ => .of_isDefinition).bind fun opposite _ => ?_
  exact (failsOnly_feasible ho _ _).map _

/-- Pruning keeps rules of the list. -/
theorem ends_prune (kept rules : List (Rule K)) :
    Ends o.Fails (· ⊆ kept ++ rules) (o.prune kept rules) := by
  induction rules generalizing kept with
  | nil => exact ends_ok (List.subset_append_left _ _)
  | cons r rules ih =>
    refine (failsOnly_isRedundant ho _ _).ends.bind fun redundant _ => ?_
    refine ends_ite (fun _ => (ih kept).imp_result fun out hout => ?_) fun _ =>
      (ih (kept ++ [r])).imp_result fun out hout => ?_
    · refine List.Subset.trans hout (List.append_subset.mpr ⟨List.subset_append_left _ _, ?_⟩)
      exact List.Subset.trans (List.subset_cons_self r rules) (List.subset_append_right _ _)
    · rwa [List.append_assoc, List.singleton_append] at hout

theorem ends_removeRedundancy (hs : s.IsProper) :
    Ends o.Fails RuleSet.IsProper (o.removeRedundancy s).outcome := by
  rw [removeRedundancy, Reported.outcome_bind]
  refine (failsOnly_isFeasible ho s).ends.bind fun feasible _ => ?_
  cases feasible with
  | false => exact ends_ok hs
  | true =>
    refine (ends_prune ho [] s.rules).bind fun rules hrules => ?_
    exact (RuleSet.ends_ofList fun r hr => hs r (hrules hr)).imp_error fun _ => .of_isDefinition

end Queries

end Oracle

/-! ### Fixed variables -/

theorem FixedValue.failsOnly_probes (epsilon : K) (var : String) (value : FixedValue K) :
    FailsOnly Error.IsDefinition (value.probes epsilon var) := by
  cases value with
  | number x =>
    have hside : ∀ (name : String) (relation : Relation) (bound : K),
        FailsOnly Error.IsDefinition (do
          Rule.make (.text name)
            (.atom (.linear (← LinearClause.ofPairs [(var, 1)] relation bound)))) :=
      fun name relation bound => (LinearClause.failsOnly_ofPairs _ _ _).bind fun _ _ =>
        Rule.failsOnly_make _ _
    exact (hside _ _ _).bind fun _ _ => (hside _ _ _).map _
  | label l =>
    refine FailsOnly.bind ?_ fun clause _ => (Rule.failsOnly_make _ _).map _
    exact (VarName.failsOnly_read _).bind fun _ _ => failsOnly_ok _

/-- The value that is tested for a numeric variable is a number. -/
theorem Reading.exists_number_of_candidate? {reading : Reading K} {value : FixedValue K}
    (h : reading.candidate? = some value) (hkind : reading.kind = .numeric) :
    ∃ x, value = .number x := by
  unfold candidate? at h
  split at h
  · exact ⟨_, (Option.some.inj h).symm⟩
  · cases hkind
  · cases h

/-- Variables that rules use as numeric ones have numbers among some values. -/
def HaveNumbers (values : List (String × FixedValue K)) (rules : List (Rule K)) : Prop :=
  ∀ e ∈ values, (e.1, .numeric) ∈ (rules.flatMap Rule.clauses).flatMap Clause.uses →
    ∃ x, e.2 = .number x

namespace Oracle

variable {o : Oracle K} {s : RuleSet K} (ho : o.solver.IsComplete)

include ho

theorem ends_fixedValue? (s : RuleSet K) (var : String) (reading : Reading K) :
    Ends o.Fails (fun found => ∀ value ∈ found, reading.kind = .numeric → ∃ x, value = .number x)
      (o.fixedValue? s var reading) := by
  unfold fixedValue?
  split
  · exact ends_ok fun _ h => nomatch h
  · next value hvalue =>
    have hprobes := value.failsOnly_probes o.settings.epsilon.value var
    refine (hprobes.mono fun _ => .of_isDefinition).ends.bind fun probes _ => ?_
    refine (failsOnly_allM fun r _ => (failsOnly_feasible ho _ _).map _).ends.map
      fun excluded _ found hfound => ?_
    split at hfound
    · obtain rfl := Option.some.inj hfound
      exact Reading.exists_number_of_candidate? hvalue
    · cases hfound

theorem ends_fixed (s : RuleSet K) :
    Ends o.Fails (HaveNumbers · s.rules) (o.fixed s).outcome := by
  rw [fixed, Reported.outcome_bind]
  refine (ends_solve ho s.rules _).bind fun found hfound => ?_
  cases hfeasible : found.feasible with
  | false => exact ends_ok (List.forall_mem_nil _)
  | true =>
    obtain ⟨-, hassigned⟩ := hfound hfeasible
    refine (s.failsOnly_kinds.mono fun _ => .of_isDefinition).ends.bind fun table htable => ?_
    have htab := RuleSet.tabulates_kinds htable
    refine Ends.map (P := fun results => ∀ result ∈ results,
      HaveNumbers result.toList s.rules) ?_ ?_
    · -- every variable of the table is one of the clauses, so it has a reading of its kind
      refine ends_mapM fun e he => ?_
      obtain ⟨n, kind⟩ := e
      have huse := (htab.mem_iff _).mp he
      obtain ⟨reading, hreading, hkind⟩ := hassigned _ huse
      dsimp only at hreading hkind ⊢
      rw [hreading]
      refine (ends_fixedValue? ho s n reading).map fun value hvalue => ?_
      rintro _ he hnumeric
      obtain ⟨v, hv, rfl⟩ := Option.map_eq_some_iff.mp (Option.mem_toList.mp he)
      exact hvalue v hv (hkind.trans (htab.kind_unique huse hnumeric))
    · intro results hresults e he
      obtain ⟨result, hresult, hsome⟩ := List.mem_filterMap.mp he
      exact hresults result hresult e (Option.mem_toList.mpr hsome)

end Oracle

/-! ### Plugging fixed values in -/

/-- Reading a fixed value as a number may be refused, but is not out of range. -/
theorem FixedValue.toNumber_ne_overflow (value : FixedValue K) (o : Overflow) :
    value.toDatum.toNumber ≠ .error (.overflow o) := by
  cases value with
  | number x => rintro ⟨⟩
  | label l =>
    rw [toDatum, Datum.toNumber]
    split
    · rintro ⟨⟩
    · rintro ⟨⟩

theorem HaveNumbers.isNumericOn {fixed : List (String × FixedValue K)} {rules : List (Rule K)}
    (h : HaveNumbers fixed rules) {targets : Assignment K}
    (htargets : targets ⊆ fixed.map fun e => (e.1, e.2.toDatum)) :
    targets.IsNumericOn ((rules.flatMap Rule.clauses).flatMap Clause.uses) := by
  intro n hn v hv
  obtain ⟨⟨m, value⟩, he, heq⟩ := List.mem_map.mp (htargets (Assoc.mem_of_get? hv))
  obtain ⟨rfl, rfl⟩ := Prod.mk.inj heq
  obtain ⟨x, rfl⟩ := h _ he hn
  exact ⟨x, rfl⟩

namespace Oracle

variable {o : Oracle K} {s : RuleSet K} {r : Rule K} {values : Assignment K}

theorem ends_bindingsFor (hr : r.expr.IsProper) (values : Assignment K) :
    Ends o.Fails (fun bindings => ∀ b ∈ bindings, Assoc.get? b.1 values = some b.2)
      (bindingsFor r values) := by
  refine ((Rule.failsOnly_vars hr).mono fun _ => .of_isDefinition).ends.bind fun vars _ => ?_
  refine (r.failsOnly_dnf.mono fun _ => .of_isDefinition).ends.map fun dnf _ b hb => ?_
  obtain ⟨var, -, hb⟩ := List.mem_filterMap.mp hb
  split at hb
  · cases hb
  · obtain ⟨v, hv, rfl⟩ := Option.map_eq_some_iff.mp hb
    exact hv

theorem ends_substituteFixed (hr : r.expr.IsProper)
    (hvalues : values.IsNumericOn (r.clauses.flatMap Clause.uses)) :
    Ends o.Fails (fun out => ∀ r' ∈ out, r'.expr.IsProper) (substituteFixed values r) := by
  refine (ends_bindingsFor hr values).bind fun bindings hbindings => ?_
  have hdone : ∀ r' : Rule K, r'.expr.IsProper → Ends o.Fails
      (fun out : Option (Rule K) => ∀ r' ∈ out, r'.expr.IsProper)
      (do return if ← r'.isTautology then none else some r') := fun r' hr' => by
    refine (failsOnly_isTautology r').ends.map fun always _ q hq => ?_
    split at hq
    · cases hq
    · exact Option.some.inj hq ▸ hr'
  refine ends_ite (fun _ => hdone r hr) fun _ => ?_
  have hnumeric : bindings.IsNumericOn (r.clauses.flatMap Clause.uses) := fun n hn v hv =>
    hvalues n hn v (hbindings _ (Assoc.mem_of_get? hv))
  exact ((Rule.ends_substitute _ hr hnumeric).imp_error fun _ => .of_isDefinition).bind hdone

theorem ends_simplifyFixed (ho : o.solver.IsComplete) (hs : s.IsProper) :
    Ends o.Fails RuleSet.IsProper (o.simplifyFixed s).outcome := by
  rw [simplifyFixed, Reported.outcome_bind]
  refine (ends_fixed ho s).bind fun fixed hfixed => ?_
  dsimp only [Reported.outcome_lift]
  refine (ends_filterM fun target _ => failsOnly_anyM fun r hr =>
    (ends_bindingsFor (hs r hr) _).failsOnly.map _).bind fun targets htargets => ?_
  refine ends_ite (fun _ => ends_ok hs) fun _ => ?_
  -- what is plugged in are fixed values, so numeric variables get numbers
  have hnumeric := hfixed.isNumericOn htargets
  refine (s.failsOnly_kinds.mono fun _ => .of_isDefinition).ends.bind fun kinds _ => ?_
  refine (ends_filterMapM fun r hr => ends_substituteFixed (hs r hr) (hnumeric.mono ?_)).bind
    fun rules hrules => ?_
  · rw [List.flatMap_assoc]
    exact fun u hu => List.mem_flatMap.mpr ⟨r, hr, hu⟩
  refine Ends.bind (P := (∀ r ∈ ·, r.expr.IsProper)) (ends_filterMapM fun e he => ?_)
    fun pins hpins => ?_
  · refine (failsOnly_anyM fun r _ =>
      (r.failsOnly_dnf.mono fun _ => .of_isDefinition).map _).ends.bind fun pinned _ => ?_
    refine ends_ite (fun _ => ends_ok fun _ h => nomatch h) fun _ => ?_
    -- fixed values are no integers, so none of them is out of range
    obtain ⟨f, -, rfl⟩ := List.mem_map.mp (htargets he)
    refine ((Rule.ends_pin f.1 fun _ => f.2.toNumber_ne_overflow).imp_error
      fun _ => .of_isDefinition).map fun pin hpin q hq => ?_
    exact Option.some.inj hq ▸ hpin
  · refine (RuleSet.ends_ofList ?_).imp_error fun _ => .of_isDefinition
    exact List.forall_mem_append.mpr ⟨hrules, hpins⟩

/-! ### Terms that cannot hold -/

section Simplify

variable (ho : o.solver.IsComplete)

include ho

theorem ends_livingTerms (others : List (Rule K)) (name : String) {dnf : Dnf K}
    (hdnf : dnf.Within Clause.IsProper) :
    Ends o.Fails (· ⊆ dnf) (o.livingTerms others name dnf) := by
  refine ends_filterM fun term hterm => ?_
  have hwithin : Dnf.Within [term] Clause.IsProper := fun t ht =>
    List.mem_singleton.mp ht ▸ hdnf term hterm
  refine ((Rule.ends_ofDnf hwithin _).failsOnly.mono fun _ => .of_isDefinition).bind fun r _ => ?_
  exact failsOnly_feasible ho _ _

/-- The rule that is left after dropping terms takes the place of the rule of its name. -/
theorem ends_dropTerms {name : String} (hs : s.IsProper) (hname : s.contains name = true) :
    Ends o.Fails (fun t => t.IsProper ∧ t.names = s.names) (o.dropTerms s name) := by
  obtain ⟨r, hitem, hr, rfl⟩ := RuleSet.exists_item hname
  rw [dropTerms, hitem, ok_bind]
  refine (r.failsOnly_dnf.mono fun _ => .of_isDefinition).ends.bind fun dnf hdnf => ?_
  refine ends_ite (fun _ => ends_ok ⟨hs, rfl⟩) fun _ => ?_
  have hwithin := Rule.within_isProper hdnf (hs r hr)
  refine (ends_livingTerms ho _ _ hwithin).bind fun kept hkept => ?_
  refine ends_ite (fun _ => ?_) fun _ => ends_ok ⟨hs, rfl⟩
  have hmade := Rule.ends_ofDnf (fun term hterm => hwithin term (hkept hterm)) r.name
  refine (hmade.imp_error fun _ => .of_isDefinition).bind fun r' ⟨hr'name, hr'⟩ => ?_
  obtain ⟨t, ht, hrules, hnames⟩ := RuleSet.exists_replace hr hr'name
  rw [ht]
  refine ends_ok ⟨fun q hq => ?_, hnames⟩
  rw [hrules] at hq
  obtain ⟨x, hx, rfl⟩ := List.mem_map.mp hq
  split
  · exact hr'
  · exact hs x hx

theorem ends_simplifyConditional (hs : s.IsProper) :
    Ends o.Fails RuleSet.IsProper (o.simplifyConditional s).outcome := by
  rw [simplifyConditional, Reported.outcome_bind]
  refine (failsOnly_isFeasible ho s).ends.bind fun feasible _ => ?_
  cases feasible with
  | false => exact ends_ok hs
  | true =>
    -- the names stay the same, so every one of them is found when its turn comes
    refine (ends_foldlM (fun t : RuleSet K => t.IsProper ∧ t.names = s.names) ⟨hs, rfl⟩
      fun name hname t ⟨ht, hnames⟩ => ?_).imp_result fun _ => And.left
    have hcontains : t.contains name = true := by
      rw [RuleSet.contains, hnames]
      exact List.contains_iff_mem.mpr hname
    exact (ends_dropTerms ho ht hcontains).imp_result fun _ ⟨hproper, heq⟩ =>
      ⟨hproper, heq.trans hnames⟩

/-! ### Rounds -/

theorem ends_simplifyRound (hs : s.IsProper) :
    Ends o.Fails RuleSet.IsProper (o.simplifyRound s).outcome :=
  Reported.ends_bind (ends_simplifyFixed ho hs) fun _ hfixed =>
    Reported.ends_bind (ends_simplifyConditional ho hfixed) fun _ => ends_removeRedundancy ho

theorem ends_simplifyRounds (limit rounds : Nat) (hs : s.IsProper) :
    Ends o.Fails RuleSet.IsProper (o.simplifyRounds limit rounds s).outcome := by
  induction rounds generalizing s with
  | zero => exact ends_error (.unfinished limit hs)
  | succ rounds ih =>
    refine Reported.ends_bind (ends_simplifyRound ho hs) fun next hnext => ?_
    split
    · exact ends_ok hs
    · exact ih hnext

/-- A simplification ends with rules that are made of clauses, or as any query does, or because an
integer among the values that are plugged in is out of range. -/
theorem ends_simplify (hs : s.IsProper) (bindings : Assignment K) :
    Ends (fun e => o.Fails e ∨ bindings.Overflows e) RuleSet.IsProper
      (o.simplify s bindings).outcome := by
  have hrest : ∀ s : RuleSet K, s.IsProper →
      Ends (fun e => o.Fails e ∨ bindings.Overflows e) RuleSet.IsProper (do
        if !(← o.isFeasible s) then
          Reported.warn (.infeasibleSet .simplification)
          return s
        let limit := max 1 s.size
        o.simplifyRounds limit (limit + 1) s : Reported K (RuleSet K)).outcome := by
    intro s hs
    -- once the values are plugged in, no number is read any more
    refine Ends.imp_error (E := o.Fails) ?_ fun _ => .inl
    rw [Reported.outcome_bind]
    refine (failsOnly_isFeasible ho s).ends.bind fun feasible _ => ?_
    cases feasible with
    | false => exact ends_ok hs
    | true => exact ends_simplifyRounds ho _ _ hs
  rw [simplify]
  dsimp only
  split
  · exact hrest s hs
  · refine Reported.ends_bind ?_ hrest
    exact (RuleSet.ends_substitute hs bindings true).imp_error fun _ => .imp_left .of_isDefinition

end Simplify

end Oracle

end RuleAudit
