import Mathlib.Algebra.Order.BigOperators.Group.List
import Mathlib.Data.Finset.Card
import RuleAudit.Proofs.Query.Conditional
import RuleAudit.Proofs.Query.Plugging

/-!
# Rounds of simplification

A round that changes a set makes it smaller: plugging a variable in costs a pin but closes the
variable, and otherwise terms or rules go (`Oracle.simplifyRound_cases`). With an exact solver and
labels that stay apart, a set is settled after a round: all terms that could be dropped are alive,
and no rule follows from the others. From then on, only rounds that close a variable change
anything.
-/

namespace RuleAudit

/-! ### What a set costs -/

namespace Rule

/-- One for the rule, and one for each of its terms. -/
def weight (r : Rule Rat) : Nat :=
  1 + (r.dnf.toOption.getD []).length

theorem weight_eq {r : Rule Rat} {d : Dnf Rat} (hd : r.dnf = .ok d) : r.weight = 1 + d.length := by
  rw [weight, hd]
  rfl

theorem IsTrimmed.eq_or_weight_lt {r r' : Rule Rat} (h : r.IsTrimmed r') :
    r' = r ∨ r'.weight < r.weight := by
  obtain ⟨-, -, d, d', hd, hd', hsub, hsame⟩ := h
  rw [weight_eq hd, weight_eq hd']
  rcases hsub.length_le.eq_or_lt with heq | hlt
  · exact .inl (hsame (.inl heq))
  · exact .inr (by omega)

theorem IsPlugged.weight_le {L : Lexicon} {values : Assignment Rat} {r r' : Rule Rat}
    (h : r.IsPlugged values r') (hr : r.Fits L) : r'.weight ≤ r.weight := by
  obtain ⟨d, hd, -⟩ := id hr
  obtain ⟨d', hd', -⟩ := h.fits L hr
  have hle := h.length_le d d' hd hd'
  rw [weight_eq hd, weight_eq hd']
  omega

theorem IsPin.weight {r : Rule Rat} {n : VarName} {value : FixedValue Rat}
    (h : r.IsPin n value) : r.weight = 2 := by
  rw [weight_eq h.dnf]
  rfl

end Rule

/-- Three for each open variable, and the weights of the rules. -/
def load (rules : List (Rule Rat)) : Nat :=
  3 * (openIn rules).toFinset.card + (rules.map Rule.weight).sum

section Load

variable {rules rules' : List (Rule Rat)} {L : Lexicon}

theorem card_openIn_le (hopen : openIn rules' ⊆ openIn rules) :
    (openIn rules').toFinset.card ≤ (openIn rules).toFinset.card :=
  Finset.card_le_card fun _ hn => List.mem_toFinset.mpr (hopen (List.mem_toFinset.mp hn))

theorem openIn_subset (h : rules' ⊆ rules) : openIn rules' ⊆ openIn rules :=
  fun _ hn => (mem_openIn.mp hn).elim fun r hr => mem_openIn.mpr ⟨r, h hr.1, hr.2⟩

theorem AreTrimmed.openIn_subset (h : AreTrimmed rules rules') : openIn rules' ⊆ openIn rules := by
  intro n hn
  obtain ⟨r', hr', hn⟩ := mem_openIn.mp hn
  obtain ⟨r, hr, htrimmed⟩ := h.exists_of_mem hr'
  exact mem_openIn.mpr ⟨r, hr, htrimmed.subset_openVars hn⟩

/-- Rules that lose terms cost less. -/
theorem AreTrimmed.eq_or_load_lt (h : AreTrimmed rules rules') :
    rules' = rules ∨ load rules' < load rules := by
  have hcard := card_openIn_le h.openIn_subset
  obtain ⟨trim, rfl, htrim⟩ := h
  suffices hsum : rules.map trim = rules ∨
      ((rules.map trim).map Rule.weight).sum < (rules.map Rule.weight).sum from
    hsum.imp_right fun hlt => by rw [load, load]; omega
  clear hcard
  induction rules with
  | nil => exact .inl rfl
  | cons r rules ih =>
    obtain ⟨hr, hrest⟩ := List.forall_mem_cons.mp htrim
    simp only [List.map_cons, List.sum_cons]
    rcases hr.eq_or_weight_lt with heq | hlt <;> rcases ih hrest with heq' | hlt'
    · exact .inl (by rw [heq, heq'])
    · exact .inr (by rw [heq]; omega)
    · exact .inr (by rw [heq']; omega)
    · exact .inr (by omega)

/-- Fewer rules cost less. -/
theorem eq_or_load_lt_of_sublist (h : rules'.Sublist rules) :
    rules' = rules ∨ load rules' < load rules := by
  have hcard := card_openIn_le (openIn_subset h.subset)
  suffices hsum : rules' = rules ∨
      (rules'.map Rule.weight).sum < (rules.map Rule.weight).sum from
    hsum.imp_right fun hlt => by rw [load, load]; omega
  clear hcard
  induction h with
  | slnil => exact .inl rfl
  | cons r h ih =>
    have hle : 0 < r.weight := by rw [Rule.weight]; omega
    rw [List.map_cons, List.sum_cons]
    exact .inr (by rcases ih with rfl | hlt <;> omega)
  | cons_cons r h ih =>
    simp only [List.map_cons, List.sum_cons]
    exact ih.imp (congrArg (r :: ·)) fun hlt => by omega

end Load

namespace Replaces

variable {rules rules' : List (Rule Rat)} {targets : List (String × FixedValue Rat)}
  {L : Lexicon} (hreplaces : Replaces targets rules rules')

include hreplaces

theorem openIn_subset : openIn rules' ⊆ openIn rules :=
  fun _ hn => (hreplaces.mem_openIn hn).1

/-- All targets are closed. -/
theorem card_add_length_le (hnodup : (targets.map (·.1)).Nodup)
    (hopen : ∀ p ∈ targets, p.1 ∈ openIn rules) :
    (openIn rules').toFinset.card + targets.length ≤ (openIn rules).toFinset.card := by
  have hlength : targets.length = (targets.map (·.1)).toFinset.card := by
    rw [List.toFinset_card_of_nodup hnodup, List.length_map]
  rw [hlength, ← Finset.card_union_of_disjoint]
  · refine Finset.card_le_card (Finset.union_subset (fun n hn => ?_) fun n hn => ?_)
    · exact List.mem_toFinset.mpr (hreplaces.openIn_subset (List.mem_toFinset.mp hn))
    · obtain ⟨p, hp, rfl⟩ := List.mem_map.mp (List.mem_toFinset.mp hn)
      exact List.mem_toFinset.mpr (hopen p hp)
  · rw [Finset.disjoint_left]
    intro n hn hmem
    obtain ⟨p, hp, rfl⟩ := List.mem_map.mp (List.mem_toFinset.mp hmem)
    exact (hreplaces.mem_openIn (List.mem_toFinset.mp hn)).2 p.2 hp

/-- A pin costs less than the open variable that it closes. -/
theorem load_lt (h : ∀ r ∈ rules, r.Fits L) (hne : targets ≠ [])
    (hnodup : (targets.map (·.1)).Nodup) (hopen : ∀ p ∈ targets, p.1 ∈ openIn rules) :
    load rules' < load rules := by
  have hcard := hreplaces.card_add_length_le hnodup hopen
  have hlength : 0 < targets.length := List.length_pos_of_ne_nil hne
  obtain ⟨kept, plug, keep, pin, ⟨rfl, hplugged, -⟩, hpin, rfl⟩ := hreplaces
  have hkept : (((rules.filter keep).map plug).map Rule.weight).sum ≤
      (rules.map Rule.weight).sum := by
    rw [List.map_map]
    calc ((rules.filter keep).map (Rule.weight ∘ plug)).sum
        ≤ ((rules.filter keep).map Rule.weight).sum := by
          refine List.sum_le_sum fun r hr => ?_
          have hmem := (List.mem_filter.mp hr).1
          exact (hplugged r hmem).weight_le (h r hmem)
      _ ≤ (rules.map Rule.weight).sum :=
          (List.filter_sublist.map _).sum_le_sum fun _ _ => Nat.zero_le _
  have hpins (unpinned : List (String × FixedValue Rat)) (hunpinned : unpinned ⊆ targets) :
      ((unpinned.map pin).map Rule.weight).sum = 2 * unpinned.length := by
    have hweights : (unpinned.map pin).map Rule.weight = unpinned.map fun _ => 2 := by
      rw [List.map_map]
      refine List.map_congr_left fun p hp => ?_
      obtain ⟨n, -, hpinP⟩ := hpin p (hunpinned hp)
      exact hpinP.weight
    rw [hweights, List.map_const', List.sum_replicate_nat, mul_comm]
  -- a pin weighs two, and the variable that it closes counted three
  have hfree := List.length_filter_le (fun p : String × FixedValue Rat =>
    !((rules.filter keep).map plug).any (·.isPinFor p.1)) targets
  rw [load, List.map_append, List.sum_append, hpins _ List.filter_sublist.subset, load]
  omega

end Replaces

/-! ### Dropping terms and rules -/

/-- When the rules are feasible, no term and no rule of them can be dropped. -/
def Settled (settings : Settings Rat) (rules : List (Rule Rat)) : Prop :=
  Satisfiable settings rules → (∀ r ∈ rules, r.Thrives settings rules) ∧
    ∀ before r after, rules = before ++ r :: after → ¬ r.FollowsFrom settings (before ++ after)

namespace Oracle

variable (o : Oracle Rat) {L : Lexicon} {s t : RuleSet Rat}

/-- The part of a round after the fixed variables. -/
def cleanUp (s : RuleSet Rat) : Reported Rat (RuleSet Rat) := do
  o.removeRedundancy (← o.simplifyConditional s)

variable {o}

theorem simplifyRound_outcome : (o.simplifyRound s).outcome =
    (o.simplifyFixed s).outcome >>= fun t => (o.cleanUp t).outcome := by
  rw [simplifyRound, Reported.outcome_bind]
  rfl

/-- What dropping terms and rules does to the rules. -/
structure CleansUp (s t : RuleSet Rat) : Prop where
  trimmed : ∀ r' ∈ t.rules, ∃ r ∈ s.rules, r.IsTrimmed r'
  eq_or_load_lt : t = s ∨ load t.rules < load s.rules

/-- What dropping terms and rules does to the admissible valuations. -/
structure Settles (o : Oracle Rat) (s t : RuleSet Rat) : Prop where
  settled : Settled o.settings t.rules
  eq_of_settled : Settled o.settings s.rules → t = s
  admissible : ∀ v, Admissible o.settings s.rules v → Admissible o.settings t.rules v
  /-- Rules about labels have no gaps, so no valuation is added. -/
  admissible_of_isCategorical : (∀ r ∈ s.rules, r.IsCategorical) →
    ∀ v, Admissible o.settings t.rules v → Admissible o.settings s.rules v

theorem CleansUp.openIn_subset (h : CleansUp s t) : openIn t.rules ⊆ openIn s.rules := by
  intro n hn
  obtain ⟨r', hr', hn⟩ := mem_openIn.mp hn
  obtain ⟨r, hr, htrimmed⟩ := h.trimmed r' hr'
  exact mem_openIn.mpr ⟨r, hr, htrimmed.subset_openVars hn⟩

theorem CleansUp.fits (h : CleansUp s t) (hs : ∀ r ∈ s.rules, r.Fits L) :
    ∀ r ∈ t.rules, r.Fits L := fun r' hr' => by
  obtain ⟨r, hr, htrimmed⟩ := h.trimmed r' hr'
  exact htrimmed.fits (hs r hr)

variable (hsolver : o.solver.Exact o.settings)

include hsolver

/-- Without redundant rules, a feasible set of thriving rules is settled. -/
private theorem settles_of_pruned {mid : RuleSet Rat} (hL : L.Apart)
    (hmid : ∀ r ∈ mid.rules, r.Fits L) (htrimmed : AreTrimmed s.rules mid.rules)
    (htrims : o.Trims s mid s.names) (hsat : Satisfiable o.settings s.rules)
    (ht : t.rules = pruned o.redundant [] mid.rules) : o.Settles s t := by
  have hsubset : t.rules ⊆ mid.rules := fun r hr => by
    rw [ht] at hr
    exact pruned_subset hr
  have hredundant : ∀ others ⊆ mid.rules, ∀ r ∈ mid.rules, (o.redundant others r = true ↔
      r.FollowsFrom o.settings others) := fun others hothers r hr =>
    redundant_iff hsolver hL (hmid r hr) fun x hx => hmid x (hothers hx)
  have hto : ∀ v, Admissible o.settings mid.rules v → Admissible o.settings t.rules v :=
    fun v hv => hv.mono hsubset
  refine ⟨fun _ => ⟨fun r hr => ?_, fun before r after heq hfollows => ?_⟩, fun hsettled => ?_,
    fun v hv => hto v ((htrims.admissible_iff v).mpr hv), fun hcategorical v hv => ?_⟩
  · refine (htrims.thrives r (hsubset hr) ?_).mono hto
    rw [RuleSet.names, ← htrimmed.names_eq]
    exact List.mem_map_of_mem (hsubset hr)
  · exact not_followsFrom_of_pruned hredundant (ht ▸ t.distinct.of_map) (ht ▸ heq) hfollows
  · obtain ⟨hthrives, hneeded⟩ := hsettled hsat
    obtain rfl := htrims.eq hthrives
    exact RuleSet.eq_of_rules_eq (ht.trans (pruned_eq_self hredundant hneeded))
  · refine (htrims.admissible_iff v).mp ⟨hv.inBox, ?_⟩
    rw [ht] at hv
    refine tightAt_of_pruned (fun others hothers r hr hr' => ?_) hv fun e he _ => ?_
    · rw [List.nil_append] at hothers
      exact (hredundant others hothers r hr).mp hr'
    · obtain ⟨r, hr, htrimmed⟩ := htrimmed.exists_of_mem he
      exact (htrimmed.isCategorical (hcategorical r hr)).not_inGap (hmid e he)

/-- Terms and rules go, or nothing changes. -/
theorem exists_cleanUp (h : ∀ r ∈ s.rules, r.Fits L) : ∃ t, (o.cleanUp s).outcome = .ok t ∧
    CleansUp s t ∧ (L.Apart → o.Settles s t) := by
  obtain ⟨mid, hmid, htrimmed, htrims, hstays⟩ := exists_simplifyConditional hsolver h
  have hmidFits := htrimmed.fits h
  obtain ⟨t, ht, hpruned⟩ := exists_removeRedundancy hsolver hmidFits
  have hsub : t.rules.Sublist mid.rules := by
    split at hpruned
    · exact hpruned ▸ pruned_sublist
    · rw [hpruned]
  have hcleansUp : CleansUp s t := by
    refine ⟨fun r' hr' => htrimmed.exists_of_mem (hsub.subset hr'), ?_⟩
    rcases htrimmed.eq_or_load_lt with heq | hlt <;>
      rcases eq_or_load_lt_of_sublist hsub with heq' | hlt'
    · exact .inl (RuleSet.eq_of_rules_eq (heq'.trans heq))
    · exact .inr (heq ▸ hlt')
    · exact .inr (heq' ▸ hlt)
    · exact .inr (hlt'.trans hlt)
  refine ⟨t, ?_, hcleansUp, fun hL => ?_⟩
  · rw [cleanUp, Reported.outcome_bind, hmid, Outcome.ok_bind, ht]
  by_cases hsat : Satisfiable o.settings s.rules
  · have hverdict : o.verdict mid.rules "checking feasibility" = true := by
      refine (verdict_iff hsolver hL hmidFits _).mpr (hsat.imp fun v hv => ?_)
      exact ((htrims hL hsat).admissible_iff v).mpr hv
    rw [hverdict, if_pos rfl] at hpruned
    exact settles_of_pruned hsolver hL hmidFits htrimmed (htrims hL hsat) hsat hpruned
  · -- an infeasible set is returned as it is
    obtain rfl := hstays hL hsat
    rw [(verdict_eq_false_iff hsolver hL hmidFits _).mpr hsat, if_neg Bool.false_ne_true] at hpruned
    obtain rfl := hpruned
    exact ⟨fun hsat' => absurd hsat' hsat, fun _ => rfl, fun _ => id, fun _ _ => id⟩

end Oracle

/-! ### One round -/

/-- An error about two rules of one name. -/
def Error.IsClash (e : Error Rat) : Prop :=
  ∃ name, e = .definition ⟨.text name, none⟩ .duplicateRule

theorem RuleSet.ofList_cases (rules : List (Rule Rat)) :
    (∃ e, ofList rules = .error e ∧ e.IsClash) ∨ ∃ t, ofList rules = .ok t ∧ t.rules = rules := by
  rw [ofList]
  split
  · exact .inr ⟨_, rfl, rfl⟩
  · exact .inl ⟨_, rfl, _, rfl⟩

namespace Oracle

variable {o : Oracle Rat} {L : Lexicon} {s t : RuleSet Rat}
  (hsolver : o.solver.Exact o.settings) (h : ∀ r ∈ s.rules, r.Fits L)

include hsolver h

/-- Plugging fixed variables in closes a variable, or nothing changes. -/
theorem simplifyFixed_cases : (∃ e, (o.simplifyFixed s).outcome = .error e ∧ e.IsClash) ∨
    ∃ t, (o.simplifyFixed s).outcome = .ok t ∧ (∀ r ∈ t.rules, r.Fits L) ∧
      (t = s ∨ load t.rules < load s.rules ∧
        (openIn t.rules).toFinset.card < (openIn s.rules).toFinset.card) := by
  obtain ⟨fixed, hfixed, hnodup, hsuits, -⟩ := exists_fixed_suits hsolver h
  rcases exists_simplifyFixed h hfixed fun p hp => (hsuits p hp).2 with
    ⟨-, hsame⟩ | ⟨hne, rules', hreplaces, hofList⟩
  · exact .inr ⟨s, hsame, h, .inl rfl⟩
  have htargets : ((targetsIn s.rules fixed).map (·.1)).Nodup :=
    hnodup.sublist (List.filter_sublist.map _)
  have hopen : ∀ p ∈ targetsIn s.rules fixed, p.1 ∈ openIn s.rules :=
    fun p hp => (mem_targetsIn.mp hp).2
  have hcard := hreplaces.card_add_length_le htargets hopen
  have hlength := List.length_pos_of_ne_nil hne
  rw [hofList]
  refine (RuleSet.ofList_cases rules').imp_right ?_
  rintro ⟨t, ht, rfl⟩
  refine ⟨t, ht, hreplaces.fits h fun p hp => (hsuits p (mem_targetsIn.mp hp).1).1, .inr ⟨?_, ?_⟩⟩
  · exact hreplaces.load_lt h hne htargets hopen
  · omega

/-- A round makes a set smaller, or nothing changes; and a settled set stays as it is unless a
variable is closed. -/
theorem simplifyRound_cases : (∃ e, (o.simplifyRound s).outcome = .error e ∧ e.IsClash) ∨
    ∃ t, (o.simplifyRound s).outcome = .ok t ∧ (∀ r ∈ t.rules, r.Fits L) ∧
      (t = s ∨ load t.rules < load s.rules) ∧
      (openIn t.rules).toFinset.card ≤ (openIn s.rules).toFinset.card ∧
      (L.Apart → Settled o.settings t.rules ∧ (Settled o.settings s.rules →
        t = s ∨ (openIn t.rules).toFinset.card < (openIn s.rules).toFinset.card)) := by
  rw [simplifyRound_outcome]
  obtain ⟨e, he, hclash⟩ | ⟨mid, hmid, hfits, hplugged⟩ := simplifyFixed_cases hsolver h
  · exact .inl ⟨e, by rw [he]; rfl, hclash⟩
  obtain ⟨t, ht, hcleansUp, hsettles⟩ := exists_cleanUp hsolver hfits
  have hcard := card_openIn_le hcleansUp.openIn_subset
  refine .inr ⟨t, by rw [hmid, Outcome.ok_bind, ht], hcleansUp.fits hfits, ?_, ?_, fun hL =>
    ⟨(hsettles hL).settled, fun hsettled => ?_⟩⟩
  · rcases hplugged with rfl | ⟨hload, -⟩
    · exact hcleansUp.eq_or_load_lt
    · refine .inr ?_
      rcases hcleansUp.eq_or_load_lt with rfl | hload'
      · exact hload
      · exact hload'.trans hload
  · rcases hplugged with rfl | ⟨-, hclosed⟩
    · exact hcard
    · omega
  -- if no variable was closed, the second half saw the settled set itself
  · rcases hplugged with rfl | ⟨-, hclosed⟩
    · exact .inl ((hsettles hL).eq_of_settled hsettled)
    · exact .inr (by omega)

end Oracle

end RuleAudit
