import RuleAudit.Proofs.Program.Usage
import RuleAudit.Proofs.RuleSet
import RuleAudit.Proofs.Tree.Items

/-!
# Collecting rules

The rules that are collected have different names and use every variable with one kind
(`RuleSet.kindConsistent_of_collect`), and rules like that are all collected, without a warning and
whether or not misfits are an error (`RuleSet.collect_eq`).
-/

namespace RuleAudit

open Outcome

variable {K : Type} [Scalar K]

namespace RuleSet

variable {c next : Collected K} {r : Rule K} {rules : List (Rule K)}

/-- Rules with different names, and the exact table of the kinds that they use. -/
structure Collected.IsConsistent (c : Collected K) : Prop where
  tabulates : Tabulates c.kinds ((c.rules.flatMap Rule.clauses).flatMap Clause.uses)
  normal : ∀ r ∈ c.rules, ∃ d, r.dnf = .ok d ∧ d.Within Clause.IsProper
  nodup : (c.rules.map (·.name)).Nodup

theorem Collected.isConsistent_nil : IsConsistent (⟨[], []⟩ : Collected K) :=
  ⟨.empty, List.forall_mem_nil _, List.nodup_nil⟩

theorem Collected.IsConsistent.kindConsistent (h : c.IsConsistent) : KindConsistent c.rules := by
  obtain ⟨kinds, hkinds⟩ := h.tabulates.exists_agrees
  refine ⟨kinds, fun r hr => ?_⟩
  obtain ⟨d, hd, hproper⟩ := h.normal r hr
  refine ⟨d, hd, fun term hterm a ha => ⟨hproper term hterm a ha, ?_⟩⟩
  refine agrees_flatMap_uses.mp hkinds a (List.mem_flatMap.mpr ⟨r, hr, ?_⟩)
  rw [Rule.clauses_eq hd]
  exact List.mem_flatten.mpr ⟨term, hterm, ha⟩

/-- A rule that is added fits. -/
theorem Collected.IsConsistent.add (h : c.IsConsistent) (hadd : c.add r = .ok next) :
    next.IsConsistent := by
  have hnodup := nodup_of_add hadd h.nodup
  rw [Collected.add] at hadd
  split at hadd
  · cases hadd
  · obtain ⟨entries, hentries, hadd⟩ := bind_eq_ok.mp hadd
    obtain ⟨merged, hmerged, hadd⟩ := bind_eq_ok.mp hadd
    obtain rfl := Except.ok.inj hadd
    obtain ⟨d, hd, hentries⟩ := bind_eq_ok.mp hentries
    obtain ⟨htab, hproper⟩ := Dnf.tabulates_kinds hentries
    refine ⟨?_, List.forall_mem_append.mpr
      ⟨h.normal, List.forall_mem_singleton.mpr ⟨d, hd, hproper⟩⟩, hnodup⟩
    rw [List.flatMap_append, List.flatMap_append, List.flatMap_singleton, Rule.clauses_eq hd]
    refine (tabulates_mergeKinds h.tabulates hmerged).congr fun u => ?_
    rw [List.mem_append, List.mem_append, htab.mem_iff]

theorem Collected.IsConsistent.run {strict : Bool} (h : c.IsConsistent)
    (hrun : (run strict c rules).outcome = .ok next) : next.IsConsistent := by
  induction rules generalizing c with
  | nil =>
    obtain rfl := Except.ok.inj hrun
    exact h
  | cons r rules ih =>
    rw [Collected.run] at hrun
    split at hrun
    · next c' hadd => exact ih (h.add hadd) hrun
    · split at hrun
      · rw [Reported.outcome_bind, Reported.outcome_warn] at hrun
        exact ih h hrun
      · cases hrun

/-- Collected rules agree on the kind of every variable. -/
theorem kindConsistent_of_collect {strict : Bool} {s : RuleSet K}
    (h : (collect rules strict).outcome = .ok s) : KindConsistent s.rules := by
  rw [collect, Reported.outcome_bind] at h
  obtain ⟨c, hc, h⟩ := bind_eq_ok.mp h
  have hconsistent := Collected.isConsistent_nil.run hc
  obtain rfl : (⟨c.rules, hconsistent.nodup⟩ : RuleSet K) = s :=
    Except.ok.inj ((dif_pos hconsistent.nodup).symm.trans h)
  exact hconsistent.kindConsistent

theorem Collected.subset_of_run {strict : Bool} (h : (run strict c rules).outcome = .ok next) :
    next.rules ⊆ c.rules ++ rules := by
  induction rules generalizing c with
  | nil =>
    obtain rfl := Except.ok.inj h
    exact List.subset_append_left _ _
  | cons r rules ih =>
    rw [run] at h
    split at h
    · next c' hadd =>
      have hsub := ih h
      rwa [(rules_of_add hadd).1, List.append_assoc, List.singleton_append] at hsub
    · split at h
      · rw [Reported.outcome_bind, Reported.outcome_warn] at h
        refine List.Subset.trans (ih h) (List.append_subset.mpr ?_)
        exact ⟨List.subset_append_left _ _,
          List.subset_append_of_subset_right _ (List.subset_cons_self r rules)⟩
      · cases h

/-- Only given rules are collected. -/
theorem subset_of_collect {strict : Bool} {s : RuleSet K}
    (h : (collect rules strict).outcome = .ok s) : s.rules ⊆ rules := by
  rw [collect, Reported.outcome_bind] at h
  obtain ⟨c, hc, h⟩ := bind_eq_ok.mp h
  rw [rules_of_ofList h]
  exact Collected.subset_of_run hc

/-- A rule with a new name that agrees with those collected is added. -/
theorem Collected.IsConsistent.exists_add {kinds : String → VarKind} (h : c.IsConsistent)
    (hname : r.name ∉ c.rules.map (·.name))
    (hrules : ∀ q ∈ c.rules ++ [r], ∃ d, q.dnf = .ok d ∧ d.Within (Clause.HasKinds kinds)) :
    ∃ next, c.add r = .ok next ∧ next.rules = c.rules ++ [r] := by
  obtain ⟨hold, hnew⟩ := List.forall_mem_append.mp hrules
  obtain ⟨d, hd, hwithin⟩ := List.forall_mem_singleton.mp hnew
  obtain ⟨entries, merged, hentries, hmerged, -⟩ :=
    Rule.exists_mergeKinds .earlierRules h.tabulates (agrees_of_within hold) hd hwithin
  refine ⟨⟨c.rules ++ [r], merged⟩, ?_, rfl⟩
  have hany : ¬ c.rules.any (·.name == r.name) = true := by
    rw [List.any_eq_true]
    rintro ⟨q, hq, hsame⟩
    exact hname (eq_of_beq hsame ▸ List.mem_map_of_mem hq)
  rw [Collected.add, if_neg hany, hentries, ok_bind, hmerged]
  rfl

/-- Rules that agree are collected without a warning. -/
theorem Collected.IsConsistent.exists_run {kinds : String → VarKind} (h : c.IsConsistent)
    (hnames : ((c.rules ++ rules).map (·.name)).Nodup)
    (hrules : ∀ q ∈ c.rules ++ rules, ∃ d, q.dnf = .ok d ∧ d.Within (Clause.HasKinds kinds))
    (strict : Bool) :
    ∃ next, Collected.run strict c rules = pure next ∧ next.rules = c.rules ++ rules := by
  induction rules generalizing c with
  | nil => exact ⟨c, rfl, (List.append_nil _).symm⟩
  | cons r rules ih =>
    rw [List.append_cons] at hnames hrules
    have hname : r.name ∉ c.rules.map (·.name) := by
      rw [List.map_append, List.map_append] at hnames
      have hfront := (List.nodup_append.mp hnames).1
      exact fun hmem => (List.nodup_append.mp hfront).2.2 _ hmem _ (List.mem_singleton_self _) rfl
    obtain ⟨c', hadd, hc'⟩ := h.exists_add hname (List.forall_mem_append.mp hrules).1
    obtain ⟨next, hnext, hall⟩ := ih (h.add hadd) (hc' ▸ hnames) (hc' ▸ hrules)
    refine ⟨next, ?_, by rw [hall, hc', List.append_assoc, List.singleton_append]⟩
    rw [Collected.run]
    simp only [hadd, hnext]

/-- Differently named rules that agree on the kind of every variable are all kept. -/
theorem collect_eq (hnames : (rules.map (·.name)).Nodup) (h : KindConsistent rules)
    (strict : Bool) : collect rules strict = pure ⟨rules, hnames⟩ := by
  obtain ⟨kinds, hkinds⟩ := h
  obtain ⟨next, hnext, hall⟩ :=
    Collected.isConsistent_nil.exists_run (c := ⟨[], []⟩) hnames hkinds strict
  obtain rfl : next.rules = rules := hall
  rw [collect, hnext]
  exact congrArg Reported.lift (dif_pos hnames)

end RuleSet

end RuleAudit
