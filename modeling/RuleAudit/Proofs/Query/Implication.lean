import RuleAudit.Proofs.Query.Redundancy

/-!
# Three views of redundancy

Whether a rule follows from others is asked in three ways: whether one other rule implies it on its
own (`Oracle.impliedBy`), whether all other rules imply it jointly (`Oracle.redundancy`), and
whether those still kept do (`Oracle.removeRedundancy`). The views differ in the rules that they
test with and nothing else, and what follows from some rules follows from more. So a rule that
another one implies is flagged, only flagged rules are dropped, and as long as nothing is dropped
the third view tests with the same rules as the second one (`Oracle.exists_redundancy_views`).
-/

namespace RuleAudit

/-! ### The rules besides one -/

namespace RuleSet

/-- The rules that have another name. -/
def besides {K : Type} [Scalar K] (s : RuleSet K) (name : String) : List (Rule K) :=
  s.rules.filter (·.name != name)

variable {s : RuleSet Rat} {r : Rule Rat} {name : String} {before after : List (Rule Rat)}

theorem mem_besides : r ∈ s.besides name ↔ r ∈ s.rules ∧ r.name ≠ name := by
  rw [besides, List.mem_filter, bne_iff_ne]

/-- Besides a rule there are the rules before it and the rules after it. -/
theorem besides_eq (h : s.rules = before ++ r :: after) : s.besides r.name = before ++ after := by
  have hdistinct := s.distinct
  rw [h, List.map_append, List.map_cons, List.nodup_middle, List.nodup_cons,
    ← List.map_append] at hdistinct
  have hne : ∀ x ∈ before ++ after, (x.name != r.name) = true := by
    intro x hx
    rw [bne_iff_ne]
    intro hname
    exact hdistinct.1 (hname ▸ List.mem_map_of_mem hx)
  rw [besides, h, List.filter_append, List.filter_cons_of_neg (by simp), ← List.filter_append]
  exact List.filter_eq_self.mpr hne

end RuleSet

/-! ### Pruning and flags -/

section Pruned

variable {s : RuleSet Rat} {settings : Settings Rat} {redundant : List (Rule Rat) → Rule Rat → Bool}
  (hredundant : ∀ others ⊆ s.rules, ∀ r ∈ s.rules, (redundant others r = true ↔
    r.FollowsFrom settings others))

include hredundant

/-- What is dropped follows from the rules besides it, kept or not. -/
theorem followsFrom_of_not_mem_pruned {d : Rule Rat} (hd : d ∈ s.rules)
    (hdropped : d ∉ pruned redundant [] s.rules) :
    d.FollowsFrom settings (s.besides d.name) := by
  obtain ⟨before, after, hsplit⟩ := List.append_of_mem hd
  rw [hsplit] at hdropped
  obtain ⟨kept, hpruned, hredundantHere⟩ := pruned_of_dropped hdropped
  -- the rule is none of those that were kept before it, since these stay to the end
  have hbesides : kept ++ after ⊆ s.besides d.name := by
    rw [RuleSet.besides_eq hsplit]
    refine List.append_subset.mpr ⟨?_, List.subset_append_right _ _⟩
    intro x hx
    have hmem : x ∈ pruned redundant [] (before ++ d :: after) := by
      rw [hpruned]
      exact subset_pruned hx
    have hne : x ≠ d := by
      rintro rfl
      exact hdropped hmem
    have hx' := pruned_sublist.subset hmem
    rw [List.mem_append, List.mem_cons] at hx'
    rw [List.mem_append]
    exact hx'.imp_right (Or.resolve_left · hne)
  have hrules : kept ++ after ⊆ s.rules := by
    intro x hx
    exact (RuleSet.mem_besides.mp (hbesides hx)).1
  exact ((hredundant _ hrules d hd).mp hredundantHere).mono hbesides

/-- Nothing is dropped exactly when no rule follows from the rules besides it. -/
theorem pruned_eq_self_iff : pruned redundant [] s.rules = s.rules ↔
    ∀ r ∈ s.rules, ¬ r.FollowsFrom settings (s.besides r.name) := by
  constructor
  · intro hsame r hr
    obtain ⟨before, after, hsplit⟩ := List.append_of_mem hr
    rw [RuleSet.besides_eq hsplit]
    exact not_followsFrom_of_pruned hredundant (hsame.symm ▸ s.distinct.of_map)
      (hsame.trans hsplit)
  · intro hneeded
    refine pruned_eq_self hredundant ?_
    intro before r after hsplit
    rw [← RuleSet.besides_eq hsplit]
    exact hneeded r (hsplit ▸ List.mem_append_right _ List.mem_cons_self)

end Pruned

/-! ### Asking the solver -/

namespace Oracle

variable {o : Oracle Rat} {L : Lexicon} {s : RuleSet Rat} {t : Rule Rat}
  (hsolver : o.solver.Exact o.settings) (hL : L.Apart) (hfits : ∀ r ∈ s.rules, r.Fits L)

include hsolver hL hfits

/-- Every rule is flagged with whether it follows from the rules besides it. -/
theorem exists_flags : ∃ flags, o.redundancy s = .ok flags ∧ flags.map (·.1) = s.names ∧
    ∀ t ∈ s.rules, (t.name, true) ∈ flags ↔ t.FollowsFrom o.settings (s.besides t.name) := by
  have hothers : ∀ t : Rule Rat, ∀ x ∈ s.besides t.name, x.Fits L := fun t x hx =>
    hfits x (RuleSet.mem_besides.mp hx).1
  refine ⟨s.rules.map fun r => (r.name, o.redundant (s.besides r.name) r), ?_, ?_, ?_⟩
  · refine Outcome.mapM_eq_map ?_
    intro r hr
    rw [← RuleSet.besides, isRedundant_eq hsolver (hfits r hr) (hothers r)]
    rfl
  · rw [List.map_map]
    rfl
  · intro t ht
    rw [← redundant_iff hsolver hL (hfits t ht) (hothers t), List.mem_map]
    constructor
    · rintro ⟨r, hr, heq⟩
      obtain ⟨hname, htrue⟩ := Prod.mk.inj heq
      rwa [RuleSet.eq_of_name_eq hr ht hname] at htrue
    · intro htrue
      exact ⟨t, ht, by rw [htrue]⟩

/-- A rule is implied by the others that cannot hold together with its opposite. -/
theorem exists_impliedBy (ht : t ∈ s.rules) :
    ∃ n implying, t.opposite = .ok n ∧ o.impliedBy s t.name = .ok implying ∧
      implying.Sublist s.names ∧
      ∀ r ∈ s.rules, r.name ∈ implying ↔ r.name ≠ t.name ∧ ¬ Satisfiable o.settings [r, n] := by
  classical
  obtain ⟨n, hn, hnFits, -⟩ := (hfits t ht).exists_opposite
  have hfilter : ((s.besides t.name).filterM fun r => return !(← o.feasible [r, n]
      ("testing '" ++ r.name ++ "' => '" ++ t.name ++ "'"))) =
        .ok ((s.besides t.name).filter fun r => decide (¬ Satisfiable o.settings [r, n])) := by
    refine Outcome.filterM_eq_filter ?_
    intro r hr
    have hpair : ∀ x ∈ [r, n], x.Fits L := List.forall_mem_cons.mpr
      ⟨hfits r (RuleSet.mem_besides.mp hr).1, List.forall_mem_singleton.mpr hnFits⟩
    rw [feasible_eq_decide hsolver hL hpair, Outcome.ok_bind, decide_not]
    rfl
  have hsublist : ((s.besides t.name).filter fun r =>
      decide (¬ Satisfiable o.settings [r, n])).Sublist s.rules :=
    List.filter_sublist.trans List.filter_sublist
  refine ⟨n, _, hn, ?_, hsublist.map (·.name), ?_⟩
  · rw [impliedBy, RuleSet.item_eq ht, Outcome.ok_bind, hn, Outcome.ok_bind]
    dsimp only
    rw [← RuleSet.besides, hfilter]
    rfl
  · intro r hr
    rw [RuleSet.name_mem_map_iff hsublist.subset hr, List.mem_filter, RuleSet.mem_besides,
      decide_eq_true_eq, and_iff_right hr]

/-- From a feasible set, only rules that follow from the ones besides them are dropped. -/
theorem exists_removeRedundancy_besides (hfeasible : o.isFeasible s = .ok true) :
    ∃ k, o.removeRedundancy s = ⟨.ok k, []⟩ ∧ k.rules.Sublist s.rules ∧
      (∀ r ∈ s.rules, r ∉ k.rules → r.FollowsFrom o.settings (s.besides r.name)) ∧
      (k = s ↔ ∀ r ∈ s.rules, ¬ r.FollowsFrom o.settings (s.besides r.name)) := by
  have hredundant : ∀ others ⊆ s.rules, ∀ r ∈ s.rules, (o.redundant others r = true ↔
      r.FollowsFrom o.settings others) := fun others hothers r hr =>
    redundant_iff hsolver hL (hfits r hr) fun x hx => hfits x (hothers hx)
  obtain ⟨k, hk, hpruned⟩ := exists_removeRedundancy hsolver hfits
  rw [verdict_of_isFeasible hfeasible, if_pos rfl] at hpruned
  refine ⟨k, removeRedundancy_eq_ok hfeasible hk, hpruned ▸ pruned_sublist, ?_, ?_⟩
  · intro r hr hdropped
    exact followsFrom_of_not_mem_pruned hredundant hr (hpruned ▸ hdropped)
  · rw [← pruned_eq_self_iff hredundant, ← hpruned]
    exact ⟨congrArg RuleSet.rules, RuleSet.eq_of_rules_eq⟩

end Oracle

/-- **The views of redundancy agree.** A rule is implied by exactly the other rules that nothing in
the box satisfies tightly together with its opposite, listed in order of declaration; among them are
all that are tight only where it is true. It is flagged exactly when it follows from all other
rules, hence whenever one of them implies it. From a feasible set only flagged rules are dropped,
and the set stays as it is exactly when none is flagged. -/
theorem Oracle.exists_redundancy_views (o : Oracle Rat) (s : RuleSet Rat)
    (hrules : KindConsistent s.rules)
    (hnames : ∀ p, Program.ofRules s.rules o.settings = .ok p → (p.vars.map (·.name)).Nodup)
    (hsolver : o.solver.Exact o.settings) :
    ∃ flags, o.redundancy s = .ok flags ∧ flags.map (·.1) = s.names ∧
      (∀ t ∈ s.rules, (t.name, true) ∈ flags ↔ t.FollowsFrom o.settings (s.besides t.name)) ∧
      (∀ t ∈ s.rules, ∃ n implying, t.opposite = .ok n ∧
        o.impliedBy s t.name = .ok implying ∧ implying.Sublist s.names ∧
        (∀ r ∈ s.rules, r.name ∈ implying ↔
          r.name ≠ t.name ∧ ¬ Satisfiable o.settings [r, n]) ∧
        (∀ r ∈ s.rules, r.name ≠ t.name →
          (∀ v, Admissible o.settings [r] v → t.expr.eval .exact v = true) → r.name ∈ implying) ∧
        (implying ≠ [] → (t.name, true) ∈ flags)) ∧
      (o.isFeasible s = .ok true → ∃ k, o.removeRedundancy s = ⟨.ok k, []⟩ ∧
        k.rules.Sublist s.rules ∧ (∀ r ∈ s.rules, r ∉ k.rules → (r.name, true) ∈ flags) ∧
        (k = s ↔ ∀ r ∈ s.rules, (r.name, true) ∉ flags)) := by
  obtain ⟨L, hL, hfits, -⟩ := hrules.exists_apart hnames
  obtain ⟨flags, hflags, hflagNames, hflag⟩ := exists_flags hsolver hL hfits
  refine ⟨flags, hflags, hflagNames, hflag, ?_, ?_⟩
  · intro t ht
    obtain ⟨n, implying, hn, himplied, hsublist, hmem⟩ := exists_impliedBy hsolver hL hfits ht
    refine ⟨n, implying, hn, himplied, hsublist, hmem, ?_, ?_⟩
    · intro r hr hne himplies
      exact (hmem r hr).mpr ⟨hne,
        (hfits t ht).not_satisfiable_opposite hn (List.mem_singleton_self r) himplies⟩
    · intro hne
      obtain ⟨name, hname⟩ := List.exists_mem_of_ne_nil implying hne
      obtain ⟨r, hr, rfl⟩ := RuleSet.mem_names.mp (hsublist.subset hname)
      obtain ⟨hother, hunsat⟩ := (hmem r hr).mp hname
      have halone : t.FollowsFrom o.settings [r] := by
        refine .inr ?_
        intro m hm
        obtain rfl := Except.ok.inj (hn.symm.trans hm)
        exact hunsat
      -- what one rule implies, more rules imply
      refine (hflag t ht).mpr (halone.mono ?_)
      exact List.cons_subset.mpr ⟨RuleSet.mem_besides.mpr ⟨hr, hother⟩, List.nil_subset _⟩
  · intro hfeasible
    obtain ⟨k, hk, hsublist, hdropped, hsame⟩ :=
      exists_removeRedundancy_besides hsolver hL hfits hfeasible
    refine ⟨k, hk, hsublist, ?_, ?_⟩
    · intro r hr hnot
      exact (hflag r hr).mpr (hdropped r hr hnot)
    · rw [hsame]
      refine forall₂_congr ?_
      intro r hr
      rw [hflag r hr]

/-- A strict bound of 1 is moved up to 1.001, so it implies one of 1.0005, which implies it in turn.
Both are flagged, and the set does not stay as it is. -/
theorem Oracle.exists_redundancy_views_strict :
    let strict : Rule Rat := ⟨"strict", .atom (.linear (.canonical [(⟨"x", by decide⟩, 1)] .gt 1)),
      none, by decide +kernel, by simp, none⟩
    let weak : Rule Rat := ⟨"weak", .atom (.linear (.canonical [(⟨"x", by decide⟩, 1)] .ge
      (10005 / 10000))), none, by decide +kernel, by simp, none⟩
    let s : RuleSet Rat := ⟨[strict, weak], by decide⟩
    let solver := Solver.hinted [[("num[x]", 2)]]
    KindConsistent s.rules ∧ ∃ settings, Settings.default = .ok settings ∧
      (∃ p, Program.ofRules s.rules settings = .ok p ∧ (p.vars.map (·.name)).Nodup) ∧
      solver.Exact settings ∧ Oracle.isFeasible ⟨solver, settings⟩ s = .ok true ∧
      Oracle.impliedBy ⟨solver, settings⟩ s "strict" = .ok ["weak"] ∧
      Oracle.impliedBy ⟨solver, settings⟩ s "weak" = .ok ["strict"] ∧
      ∃ flags k, Oracle.redundancy ⟨solver, settings⟩ s = .ok flags ∧ ("strict", true) ∈ flags ∧
        ("weak", true) ∈ flags ∧ Oracle.removeRedundancy ⟨solver, settings⟩ s = ⟨.ok k, []⟩ ∧
        k ≠ s := by
  intro strict weak s solver
  have hkinds : KindConsistent s.rules := by decide +kernel
  have hsome : (Settings.default (K := Rat)).toOption.any (fun settings =>
      decide ((Oracle.isFeasible ⟨solver, settings⟩ s).toOption = some true) &&
        decide ((Oracle.impliedBy ⟨solver, settings⟩ s "strict").toOption = some ["weak"]) &&
        decide ((Oracle.impliedBy ⟨solver, settings⟩ s "weak").toOption = some ["strict"]) &&
        (Program.ofRules s.rules settings).toOption.any fun p =>
          decide (p.vars.map (·.name)).Nodup) = true := by
    decide +kernel
  obtain ⟨settings, hsettings, hall⟩ := Outcome.exists_of_any_toOption hsome
  simp only [Bool.and_eq_true, decide_eq_true_eq] at hall
  obtain ⟨⟨⟨hfeasible, hstrict⟩, hweak⟩, hprogram⟩ := hall
  have hfeasible := Outcome.eq_ok_of_toOption hfeasible
  have hstrict := Outcome.eq_ok_of_toOption hstrict
  have hweak := Outcome.eq_ok_of_toOption hweak
  obtain ⟨p, hp, hnames⟩ := Outcome.exists_of_any_toOption hprogram
  obtain ⟨flags, hflags, -, -, himplied, hremoved⟩ :=
    Oracle.exists_redundancy_views ⟨solver, settings⟩ s hkinds (fun q hq => by
      obtain rfl := Except.ok.inj (hp.symm.trans hq)
      exact of_decide_eq_true hnames) (Solver.hinted_exact _ settings)
  have hflag : ∀ t ∈ s.rules, ∀ name, Oracle.impliedBy ⟨solver, settings⟩ s t.name = .ok [name] →
      (t.name, true) ∈ flags := by
    intro t ht name hname
    obtain ⟨n, implying, -, himplying, -, -, -, hnonempty⟩ := himplied t ht
    obtain rfl := Except.ok.inj (himplying.symm.trans hname)
    exact hnonempty (List.cons_ne_nil _ _)
  have hstrictFlag := hflag strict List.mem_cons_self "weak" hstrict
  obtain ⟨k, hk, -, -, hsame⟩ := hremoved hfeasible
  refine ⟨hkinds, settings, hsettings, ⟨p, hp, of_decide_eq_true hnames⟩,
    Solver.hinted_exact _ settings, hfeasible, hstrict, hweak, flags, k, hflags, hstrictFlag,
    hflag weak (List.mem_cons_of_mem _ List.mem_cons_self) "strict" hweak, hk, ?_⟩
  intro hunchanged
  exact hsame.mp hunchanged strict List.mem_cons_self hstrictFlag

end RuleAudit
