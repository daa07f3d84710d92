import RuleAudit.Proofs.Query.Culprits
import RuleAudit.Query.Contradiction

/-!
# Conflicts with a rule

A rule is contradicted by rules with which it cannot hold in pairs, and by the members of one joint
conflict of the remaining rules with it (`Oracle.exists_contradictedBy_eq`). Leaving out a rule
whenever the others still conflict gives a conflict of which every part can hold
(`Oracle.exists_shrink`): the rules that are left only become fewer, so what could not be left out
once cannot be left out later.

Before a joint conflict is sought, the conflicts of the remaining rules among themselves are
repaired, by leaving out their culprits. A culprit may as well be needed for every conflict with the
rule in question. So what is found is exactly what can be found without the culprits
(`Oracle.exists_contradictedBy_nonempty_iff`), and conflicts can be missed
(`Oracle.contradictedBy_misses_conflict`).
-/

namespace RuleAudit

/-! ### Minimal conflicts -/

section IsMinimalConflict

variable {settings : Settings Rat} {conflict : List (Rule Rat)}

/-- Rules that cannot hold together, while all of them but any one can. -/
structure IsMinimalConflict (settings : Settings Rat) (conflict : List (Rule Rat)) : Prop where
  unsatisfiable : ¬ Satisfiable settings conflict
  minimal : ∀ fewer ⊆ conflict, ∀ r ∈ conflict, r ∉ fewer → Satisfiable settings fewer

/-- It is enough that the others can hold together, whichever rule is left out. -/
theorem isMinimalConflict_of_others (h : ¬ Satisfiable settings conflict)
    (hothers : ∀ r ∈ conflict, ∃ others, Satisfiable settings others ∧
      ∀ q ∈ conflict, q = r ∨ q ∈ others) : IsMinimalConflict settings conflict := by
  refine ⟨h, fun fewer hfewer r hr hnot => ?_⟩
  obtain ⟨others, hsat, hall⟩ := hothers r hr
  exact hsat.mono fun q hq =>
    (hall q (hfewer hq)).resolve_left fun heq => hnot (heq ▸ hq)

/-- Two rules that can hold alone are a minimal conflict if they cannot hold together. -/
theorem isMinimalConflict_pair {r t : Rule Rat} (ht : Satisfiable settings [t])
    (hr : Satisfiable settings [r]) (h : ¬ Satisfiable settings [t, r]) :
    IsMinimalConflict settings [t, r] := by
  refine isMinimalConflict_of_others h fun q hq => ?_
  rcases List.mem_pair.mp hq with rfl | rfl
  · exact ⟨[r], hr, by simp⟩
  · exact ⟨[t], ht, by simp⟩

end IsMinimalConflict

namespace Oracle

variable {o : Oracle Rat} {L : Lexicon} {t : Rule Rat} (hsolver : o.solver.Exact o.settings)
  (hL : L.Apart) (ht : t.Fits L)

include hsolver hL ht

/-! ### One joint conflict -/

/-- A rule that was kept once is needed for the conflict that is found in the end. -/
theorem exists_shrink {kept pending : List (Rule Rat)} (hkept : ∀ r ∈ kept, r.Fits L)
    (hpending : ∀ r ∈ pending, r.Fits L)
    (hconflict : ¬ Satisfiable o.settings (t :: (kept ++ pending))) :
    ∃ core, o.shrink t kept pending = .ok core ∧ core.Sublist (kept ++ pending) ∧
      ¬ Satisfiable o.settings (t :: core) ∧
      ∀ r ∈ core, r ∈ kept ∨ ∀ fewer ⊆ t :: core, r ∉ fewer → Satisfiable o.settings fewer := by
  induction pending generalizing kept with
  | nil =>
    rw [List.append_nil] at hconflict ⊢
    exact ⟨kept, rfl, .refl _, hconflict, fun r hr => .inl hr⟩
  | cons r pending ih =>
    obtain ⟨hr, hrest⟩ := List.forall_mem_cons.mp hpending
    have hfits : ∀ q ∈ t :: (kept ++ pending), q.Fits L :=
      List.forall_mem_cons.mpr ⟨ht, List.forall_mem_append.mpr ⟨hkept, hrest⟩⟩
    rw [shrink, feasible_eq hsolver hfits, Outcome.ok_bind]
    cases hverdict : o.verdict (t :: (kept ++ pending)) "shrinking conflict" with
    | true =>
      have hsat := (verdict_iff hsolver hL hfits _).mp hverdict
      rw [List.append_cons] at hconflict
      obtain ⟨core, hcore, hsublist, hunsat, hneeded⟩ := ih
        (List.forall_mem_append.mpr ⟨hkept, List.forall_mem_singleton.mpr hr⟩) hrest hconflict
      rw [← List.append_cons] at hsublist
      refine ⟨core, hcore, hsublist, hunsat, fun q hq => ?_⟩
      rcases hneeded q hq with hmem | hneeded
      · rcases List.mem_append.mp hmem with hmem | hmem
        · exact .inl hmem
        · obtain rfl := List.mem_singleton.mp hmem
          -- what can be left of the conflict without the rule is part of what was tested
          refine .inr fun fewer hfewer hnot => hsat.mono fun x hx => ?_
          have hx' : x ∈ t :: (kept ++ q :: pending) := List.cons_subset_cons t hsublist.subset
            (hfewer hx)
          have hne : x ≠ q := fun heq => hnot (heq ▸ hx)
          simpa [hne] using hx'
      · exact .inr hneeded
    | false =>
      rw [verdict_eq_false_iff hsolver hL hfits] at hverdict
      obtain ⟨core, hcore, hsublist, hunsat, hneeded⟩ := ih hkept hrest hverdict
      exact ⟨core, hcore, hsublist.trans (List.Sublist.append_left (List.sublist_cons_self _ _) _),
        hunsat, hneeded⟩

/-- Of feasible rules, the members of a minimal conflict with a rule are found if there is one. -/
theorem exists_jointConflict {rules : List (Rule Rat)} (hrules : ∀ r ∈ rules, r.Fits L)
    (hsat : Satisfiable o.settings rules) (htarget : Satisfiable o.settings [t]) :
    ∃ core, o.jointConflict t rules = .ok (core.map (·.name)) ∧ core.Sublist rules ∧
      (core = [] ∧ Satisfiable o.settings (t :: rules) ∨
        core ≠ [] ∧ IsMinimalConflict o.settings (t :: core)) := by
  have hfits : ∀ q ∈ t :: rules, q.Fits L := List.forall_mem_cons.mpr ⟨ht, hrules⟩
  rw [jointConflict]
  cases rules with
  | nil => exact ⟨[], rfl, .slnil, .inl ⟨rfl, htarget⟩⟩
  | cons r rules =>
    rw [List.isEmpty_cons, if_neg Bool.false_ne_true, feasible_eq hsolver hfits, Outcome.ok_bind]
    cases hverdict : o.verdict (t :: r :: rules) ("joint check for '" ++ t.name ++ "'") with
    | true =>
      exact ⟨[], rfl, List.nil_sublist _, .inl ⟨rfl, (verdict_iff hsolver hL hfits _).mp hverdict⟩⟩
    | false =>
      rw [verdict_eq_false_iff hsolver hL hfits] at hverdict
      obtain ⟨core, hcore, hsublist, hunsat, hneeded⟩ :=
        exists_shrink hsolver hL ht (List.forall_mem_nil _) hrules hverdict
      have hcoreSat : Satisfiable o.settings core := hsat.mono hsublist.subset
      have hne : core ≠ [] := by
        rintro rfl
        exact hunsat htarget
      have hcoreFits : ∀ q ∈ core, q.Fits L := fun q hq => hrules q (hsublist.subset hq)
      refine ⟨core, ?_, hsublist, .inr ⟨hne, hunsat, fun fewer hfewer q hq hnot => ?_⟩⟩
      · rw [if_neg Bool.false_ne_true, hcore, Outcome.ok_bind,
          if_neg (by simpa using hne), feasible_eq hsolver hcoreFits, Outcome.ok_bind,
          (verdict_iff hsolver hL hcoreFits _).mpr hcoreSat]
        rfl
      · rcases List.mem_cons.mp hq with rfl | hq
        · refine hcoreSat.mono fun x hx => (List.mem_cons.mp (hfewer hx)).resolve_left ?_
          rintro rfl
          exact hnot hx
        · exact (hneeded q hq).resolve_left List.not_mem_nil fewer hfewer hnot

end Oracle

/-! ### The rules besides one -/

section Compatible

variable {settings : Settings Rat} {s : RuleSet Rat} {r t : Rule Rat}

/-- The rule can hold alone, but not together with another one. -/
def Rule.Opposes (settings : Settings Rat) (t r : Rule Rat) : Prop :=
  Satisfiable settings [r] ∧ ¬ Satisfiable settings [t, r]

open Classical in
/-- The other rules that can hold alone and together with a rule. -/
noncomputable def RuleSet.compatible (settings : Settings Rat) (s : RuleSet Rat) (t : Rule Rat) :
    RuleSet Rat :=
  s.filter fun r => decide (r.name ≠ t.name ∧ Satisfiable settings [r] ∧
    Satisfiable settings [t, r])

theorem RuleSet.mem_compatible : r ∈ (s.compatible settings t).rules ↔
    r ∈ s.rules ∧ r.name ≠ t.name ∧ Satisfiable settings [r] ∧ Satisfiable settings [t, r] := by
  simp only [compatible, mem_filter, decide_eq_true_eq]

theorem Rule.Opposes.name_ne (ht : t ∈ s.rules) (hr : r ∈ s.rules) (h : Opposes settings t r) :
    r.name ≠ t.name := by
  intro hname
  obtain rfl := RuleSet.eq_of_name_eq hr ht hname
  exact h.2 (h.1.mono fun x hx => by simpa using hx)

/-- Leaving out compatible rules keeps all others. -/
theorem RuleSet.mem_without_of_not_mem_compatible {removed : List String}
    (hremoved : removed ⊆ (s.compatible settings t).names) (hr : r ∈ s.rules)
    (hnot : r ∉ (s.compatible settings t).rules) : r ∈ (s.without removed).rules := by
  refine mem_without.mpr ⟨hr, fun hmem => hnot ?_⟩
  obtain ⟨q, hq, hname⟩ := mem_names.mp (hremoved hmem)
  exact eq_of_name_eq (mem_compatible.mp hq).1 hr hname ▸ hq

/-- The other members of a minimal conflict can hold alone, so they are compatible or opposed. -/
theorem IsMinimalConflict.mem_compatible {conflict : List (Rule Rat)}
    (h : IsMinimalConflict settings conflict) (htMem : t ∈ conflict) (ht : t ∈ s.rules)
    (hmem : r ∈ conflict) (hr : r ∈ s.rules) (hne : r ≠ t) (hopposes : ¬ t.Opposes settings r) :
    r ∈ (s.compatible settings t).rules := by
  have halone : Satisfiable settings [r] := h.minimal [r]
    (List.cons_subset.mpr ⟨hmem, List.nil_subset _⟩) t htMem
    fun heq => hne (List.mem_singleton.mp heq).symm
  refine RuleSet.mem_compatible.mpr ⟨hr, fun hname => ?_, halone, ?_⟩
  · exact hne (RuleSet.eq_of_name_eq hr ht hname)
  · by_contra hunsat
    exact hopposes ⟨halone, hunsat⟩

/-- A conflict that needs a third rule is none of two rules that oppose each other. -/
theorem IsMinimalConflict.not_opposes {conflict : List (Rule Rat)} {q : Rule Rat}
    (h : IsMinimalConflict settings conflict) (ht : t ∈ conflict) (hr : r ∈ conflict)
    (hq : q ∈ conflict) (hqt : q ≠ t) (hqr : q ≠ r) : ¬ t.Opposes settings r := by
  refine fun hopposes => hopposes.2 (h.minimal [t, r] ?_ q hq ?_)
  · exact List.cons_subset.mpr ⟨ht, List.cons_subset.mpr ⟨hr, List.nil_subset _⟩⟩
  · simp [hqt, hqr]

end Compatible

namespace Oracle

variable {o : Oracle Rat} {L : Lexicon} {s : RuleSet Rat} {t : Rule Rat}
  (hsolver : o.solver.Exact o.settings) (hL : L.Apart) (hfits : ∀ r ∈ s.rules, r.Fits L)

include hsolver hL hfits

theorem exists_settle (hlimit : o.settings.maxRemovals.IsInteger) (t : Rule Rat) :
    ∃ culprits, o.culprits s = .ok culprits ∧ IsRepair o.settings s culprits ∧
      o.settle t s.rules = .ok (s.without culprits).rules := by
  obtain ⟨culprits, hculprits, hrepair, -⟩ := exists_repair hsolver hL hfits hlimit
  refine ⟨culprits, hculprits, hrepair, ?_⟩
  rw [settle, feasible_eq hsolver hfits, Outcome.ok_bind]
  split
  · next hempty =>
    have hnone : (s.without culprits).rules = [] := List.eq_nil_of_subset_nil fun r hr =>
      List.isEmpty_iff.mp hempty ▸ (RuleSet.mem_without.mp hr).1
    rw [hnone]
    rfl
  · cases hverdict : o.verdict s.rules ("checking the rules besides '" ++ t.name ++ "'") with
    | true =>
      rw [verdict_iff hsolver hL hfits, ← hrepair.eq_nil_iff] at hverdict
      rw [hverdict, RuleSet.without_nil]
      rfl
    | false =>
      rw [if_neg Bool.false_ne_true, RuleSet.ofList_rules, Outcome.ok_bind, makeFeasible,
        hculprits]
      rfl

omit hsolver hL hfits in
open Classical in
/-- The rules that can hold alone, without those that can also hold with `t`, oppose it. -/
theorem filter_opposes (ht : t ∈ s.rules) {settings : Settings Rat} :
    ((s.rules.filter (·.name != t.name)).filter fun r =>
        decide (Satisfiable settings [r])).filter (fun r =>
          !(s.compatible settings t).rules.any (·.name == r.name)) =
      s.rules.filter fun r => decide (t.Opposes settings r) := by
  rw [List.filter_filter, List.filter_filter]
  refine List.filter_congr fun r hr => ?_
  have hcompatible : (s.compatible settings t).rules.any (·.name == r.name) = true ↔
      r.name ≠ t.name ∧ Satisfiable settings [r] ∧ Satisfiable settings [t, r] := by
    rw [List.any_eq_true]
    constructor
    · rintro ⟨q, hq, hname⟩
      obtain ⟨hmem, hq⟩ := RuleSet.mem_compatible.mp hq
      exact RuleSet.eq_of_name_eq hmem hr (eq_of_beq hname) ▸ hq
    · exact fun h => ⟨r, RuleSet.mem_compatible.mpr ⟨hr, h⟩, beq_self_eq_true _⟩
  have hname : t.Opposes settings r → r.name ≠ t.name :=
    Rule.Opposes.name_ne ht hr
  rw [Bool.eq_iff_iff]
  simp only [Bool.and_eq_true, Bool.not_eq_true', decide_eq_true_eq, bne_iff_ne, ne_eq,
    ← Bool.not_eq_true, hcompatible]
  rw [Rule.Opposes] at hname ⊢
  tauto

open Classical in
theorem contradictedBy_outcome (ht : t ∈ s.rules) (htarget : Satisfiable o.settings [t])
    {settled : List (Rule Rat)} {joint : List String}
    (hsettle : o.settle t (s.compatible o.settings t).rules = .ok settled)
    (hjoint : o.jointConflict t settled = .ok joint) :
    (o.contradictedBy s t.name).outcome = .ok (s.names.filter fun n =>
      ((s.rules.filter fun r => decide (t.Opposes o.settings r)).map (·.name)).contains n ||
        joint.contains n) := by
  have hcandidates : ((s.rules.filter (·.name != t.name)).filterM fun r =>
      o.feasible [r] ("checking '" ++ r.name ++ "' alone")) =
        .ok ((s.rules.filter (·.name != t.name)).filter fun r =>
          decide (Satisfiable o.settings [r])) :=
    Outcome.filterM_eq_filter fun r hr => feasible_eq_decide hsolver hL
      (List.forall_mem_singleton.mpr (hfits r (List.mem_of_mem_filter hr))) _
  have hcompatible : (((s.rules.filter (·.name != t.name)).filter fun r =>
      decide (Satisfiable o.settings [r])).filterM fun r =>
        o.feasible [t, r] ("pairing '" ++ t.name ++ "' with '" ++ r.name ++ "'")) =
          .ok (s.compatible o.settings t).rules := by
    rw [Outcome.filterM_eq_filter (g := fun r => decide (Satisfiable o.settings [t, r]))
      fun r hr => feasible_eq_decide hsolver hL (List.forall_mem_cons.mpr ⟨hfits t ht,
        List.forall_mem_singleton.mpr
          (hfits r (List.mem_of_mem_filter (List.mem_of_mem_filter hr)))⟩) _]
    rw [List.filter_filter, List.filter_filter]
    refine congrArg Except.ok (List.filter_congr fun r hr => ?_)
    rw [Bool.eq_iff_iff]
    simp only [Bool.and_eq_true, decide_eq_true_eq, bne_iff_ne, ne_eq]
    tauto
  rw [contradictedBy, Reported.outcome_bind, Reported.outcome_monadLift, RuleSet.item_eq ht,
    Outcome.ok_bind, Reported.outcome_bind, Reported.outcome_monadLift,
    feasible_eq_decide hsolver hL (List.forall_mem_singleton.mpr (hfits t ht)), Outcome.ok_bind,
    decide_eq_true htarget, Bool.not_true, if_neg Bool.false_ne_true, Reported.outcome_lift]
  dsimp only
  rw [hcandidates, Outcome.ok_bind, hcompatible, Outcome.ok_bind, hsettle, Outcome.ok_bind, hjoint,
    Outcome.ok_bind, filter_opposes ht]
  rfl

open Classical in
/-- The rules that oppose a rule are listed together with the members of a minimal conflict of those
that do not and are left after a repair. -/
theorem exists_core (hlimit : o.settings.maxRemovals.IsInteger) (ht : t ∈ s.rules)
    (htarget : Satisfiable o.settings [t]) :
    ∃ culprits core, (o.contradictedBy s t.name).outcome = .ok ((s.rules.filter fun r =>
        decide (t.Opposes o.settings r ∨ r ∈ core)).map (·.name)) ∧
      o.culprits (s.compatible o.settings t) = .ok culprits ∧
      IsRepair o.settings (s.compatible o.settings t) culprits ∧
      core.Sublist ((s.compatible o.settings t).without culprits).rules ∧
      (core = [] ∧
          Satisfiable o.settings (t :: ((s.compatible o.settings t).without culprits).rules) ∨
        core ≠ [] ∧ IsMinimalConflict o.settings (t :: core)) := by
  have hmem : ∀ r ∈ (s.compatible o.settings t).rules, r ∈ s.rules := fun r hr =>
    (RuleSet.mem_compatible.mp hr).1
  obtain ⟨culprits, hculprits, hrepair, hsettle⟩ :=
    exists_settle hsolver hL (fun r hr => hfits r (hmem r hr)) hlimit t
  obtain ⟨core, hcore, hsublist, hcases⟩ := exists_jointConflict hsolver hL (hfits t ht)
    (fun r hr => hfits r (hmem r (RuleSet.mem_without.mp hr).1)) hrepair.repairs htarget
  have hcoreMem : ∀ r ∈ core, r ∈ s.rules := fun r hr =>
    hmem r (RuleSet.mem_without.mp (hsublist.subset hr)).1
  refine ⟨culprits, core, ?_, hculprits, hrepair, hsublist, hcases⟩
  rw [contradictedBy_outcome hsolver hL hfits ht htarget hsettle hcore, RuleSet.names,
    List.filter_map, Except.ok.injEq]
  refine congrArg (List.map _) (List.filter_congr fun r hr => ?_)
  rw [Bool.eq_iff_iff, Function.comp_apply, Bool.or_eq_true, List.contains_iff_mem,
    List.contains_iff_mem, RuleSet.name_mem_map_iff (List.filter_subset_self _) hr,
    RuleSet.name_mem_map_iff hcoreMem hr, List.mem_filter, decide_eq_true_eq, decide_eq_true_eq,
    and_iff_right hr]

/-- What contradicts a rule: the rules that oppose it, and the members of a minimal conflict of
those that do not and are left after a repair. -/
theorem exists_contradictedBy (hlimit : o.settings.maxRemovals.IsInteger) (ht : t ∈ s.rules)
    (htarget : Satisfiable o.settings [t]) :
    ∃ names culprits core, (o.contradictedBy s t.name).outcome = .ok names ∧
      names.Sublist s.names ∧
      o.culprits (s.compatible o.settings t) = .ok culprits ∧
      IsRepair o.settings (s.compatible o.settings t) culprits ∧
      core.Sublist ((s.compatible o.settings t).without culprits).rules ∧
      (core = [] ∧
          Satisfiable o.settings (t :: ((s.compatible o.settings t).without culprits).rules) ∨
        core ≠ [] ∧ IsMinimalConflict o.settings (t :: core)) ∧
      ∀ r ∈ s.rules, r.name ∈ names ↔ t.Opposes o.settings r ∨ r ∈ core := by
  classical
  obtain ⟨culprits, core, houtcome, hculprits, hrepair, hsublist, hcases⟩ :=
    exists_core hsolver hL hfits hlimit ht htarget
  refine ⟨_, culprits, core, houtcome, List.filter_sublist.map _, hculprits, hrepair, hsublist,
    hcases, fun r hr => ?_⟩
  rw [RuleSet.name_mem_map_iff (List.filter_subset_self _) hr, List.mem_filter, decide_eq_true_eq,
    and_iff_right hr]

open Classical in
/-- There is a warning when the rule cannot hold, and no other one. -/
theorem contradictedBy_warnings (ht : t ∈ s.rules) : (o.contradictedBy s t.name).warnings =
    if Satisfiable o.settings [t] then [] else [.infeasibleRule t.name] := by
  have hitem : (monadLift (s.item t.name) : Reported Rat (Rule Rat)).outcome = .ok t :=
    RuleSet.item_eq ht
  have hfeasible : (monadLift (o.feasible [t] ("checking '" ++ t.name ++ "' alone")) :
      Reported Rat Bool).outcome = .ok (decide (Satisfiable o.settings [t])) :=
    feasible_eq_decide hsolver hL (List.forall_mem_singleton.mpr (hfits t ht)) _
  rw [contradictedBy, Reported.warnings_bind hitem, Reported.warnings_bind hfeasible]
  by_cases htarget : Satisfiable o.settings [t]
  · rw [if_pos htarget, decide_eq_true htarget]
    rfl
  · rw [if_neg htarget, decide_eq_false htarget]
    rfl

/-- Nothing is listed for a rule that cannot hold. -/
theorem contradictedBy_of_not_satisfiable (ht : t ∈ s.rules)
    (htarget : ¬ Satisfiable o.settings [t]) :
    o.contradictedBy s t.name = ⟨.ok [], [.infeasibleRule t.name]⟩ := by
  classical
  have houtcome : (o.contradictedBy s t.name).outcome = .ok [] := by
    rw [contradictedBy, Reported.outcome_bind, Reported.outcome_monadLift, RuleSet.item_eq ht,
      Outcome.ok_bind, Reported.outcome_bind, Reported.outcome_monadLift,
      feasible_eq_decide hsolver hL (List.forall_mem_singleton.mpr (hfits t ht)), Outcome.ok_bind,
      decide_eq_false htarget]
    rfl
  have hwarnings := contradictedBy_warnings hsolver hL hfits ht
  rw [if_neg htarget] at hwarnings
  rw [← houtcome, ← hwarnings]

end Oracle

/-! ### Two bounds against a sum -/

namespace BoundedSum

/-- `x` is at least one. -/
def lowX : Rule Rat :=
  ⟨"low x", .atom (.linear (.canonical [(⟨"x", by decide⟩, 1)] .ge 1)), none, by decide +kernel,
    by simp, none⟩

/-- `y` is at least one. -/
def lowY : Rule Rat :=
  ⟨"low y", .atom (.linear (.canonical [(⟨"y", by decide⟩, 1)] .ge 1)), none, by decide +kernel,
    by simp, none⟩

/-- `x` is at most zero. -/
def highX : Rule Rat :=
  ⟨"high x", .atom (.linear (.canonical [(⟨"x", by decide⟩, 1)] .le 0)), none, by decide +kernel,
    by simp, none⟩

/-- `x` and `y` sum up to zero. -/
def zero : Rule Rat :=
  ⟨"zero", .atom (.linear (.canonical [(⟨"x", by decide⟩, 1), (⟨"y", by decide⟩, 1)] .eq 0)),
    none, by decide +kernel, by simp, none⟩

/-- Points at which some of the rules hold. -/
def points : List (List (String × Rat)) :=
  [[("num[x]", 0)], [("num[x]", 1)], [("num[y]", 1)], [("num[x]", 0), ("num[y]", 0)],
    [("num[x]", 1), ("num[y]", 1)], [("num[x]", 1), ("num[y]", -1)],
    [("num[x]", -1), ("num[y]", 1)], [("num[x]", 0), ("num[y]", 1)]]

theorem not_satisfiable (settings : Settings Rat) : ¬ Satisfiable settings [zero, lowX, lowY] := by
  rintro ⟨v, hv⟩
  have htrue : ∀ r ∈ [zero, lowX, lowY], r.expr.eval .exact v = true := fun r hr =>
    (hv.tight r hr).eval
  have hx : 1 ≤ v.number "x" := by
    have h := htrue lowX (by simp)
    have hterms : (LinearClause.canonical [((⟨"x", by decide⟩ : VarName), (1 : Rat))] .ge 1).terms =
        [("x", 1)] := by decide +kernel
    rw [lowX, Expr.eval, Clause.eval, LinearClause.sumAt, hterms, Comparison.exact_eq] at h
    simpa [LinearClause.canonical] using h
  have hy : 1 ≤ v.number "y" := by
    have h := htrue lowY (by simp)
    have hterms : (LinearClause.canonical [((⟨"y", by decide⟩ : VarName), (1 : Rat))] .ge 1).terms =
        [("y", 1)] := by decide +kernel
    rw [lowY, Expr.eval, Clause.eval, LinearClause.sumAt, hterms, Comparison.exact_eq] at h
    simpa [LinearClause.canonical] using h
  have hsum : v.number "x" + v.number "y" = 0 := by
    have h := htrue zero (by simp)
    have hterms : (LinearClause.canonical [((⟨"x", by decide⟩ : VarName), (1 : Rat)),
        (⟨"y", by decide⟩, 1)] .eq 0).terms = [("x", 1), ("y", 1)] := by decide +kernel
    rw [zero, Expr.eval, Clause.eval, LinearClause.sumAt, hterms, Comparison.exact_eq] at h
    simpa [LinearClause.canonical] using h
  linarith

/-- The sum with each bound, and the bounds. -/
def pairs : List (List (Rule Rat)) :=
  [[zero, lowX], [zero, lowY], [lowX, lowY]]

theorem isMinimalConflict {settings : Settings Rat}
    (h : ∀ rules ∈ pairs, Oracle.verdict ⟨Solver.hinted points, settings⟩ rules "" = true) :
    IsMinimalConflict settings [zero, lowX, lowY] := by
  have hkinds : ∀ rules ∈ pairs, KindConsistent rules := by decide +kernel
  have hsat : ∀ rules ∈ pairs, Satisfiable settings rules := fun rules hrules =>
    Oracle.satisfiable_of_verdict (o := ⟨Solver.hinted points, settings⟩)
      (Solver.hinted_exact _ settings) (hkinds rules hrules) (h rules hrules)
  refine isMinimalConflict_of_others (not_satisfiable settings) fun r hr => ?_
  simp only [List.mem_cons, List.not_mem_nil, or_false] at hr
  rcases hr with rfl | rfl | rfl
  · exact ⟨[lowX, lowY], hsat _ (by simp [pairs]), by simp⟩
  · exact ⟨[zero, lowY], hsat _ (by simp [pairs]), by simp⟩
  · exact ⟨[zero, lowX], hsat _ (by simp [pairs]), by simp⟩

/-- The sum can hold alone. -/
theorem satisfiable_zero {settings : Settings Rat}
    (h : IsMinimalConflict settings [zero, lowX, lowY]) : Satisfiable settings [zero] := by
  have hne : lowX ≠ zero := fun heq => absurd (congrArg Rule.name heq) (by decide)
  exact h.minimal [zero] (by simp) lowX (by simp) (by simpa using hne)

/-- The bounds are compatible with the sum, each on its own. -/
theorem bounds_subset_compatible {settings : Settings Rat} {s : RuleSet Rat}
    (hs : [zero, lowX, lowY] ⊆ s.rules) (h : IsMinimalConflict settings [zero, lowX, lowY]) :
    [lowX, lowY] ⊆ (s.compatible settings zero).rules := by
  have hX : lowX ≠ zero := fun heq => absurd (congrArg Rule.name heq) (by decide)
  have hY : lowY ≠ zero := fun heq => absurd (congrArg Rule.name heq) (by decide)
  have hXY : lowX ≠ lowY := fun heq => absurd (congrArg Rule.name heq) (by decide)
  have htarget : zero ∈ [zero, lowX, lowY] := by simp
  refine List.cons_subset.mpr ⟨?_, List.cons_subset.mpr ⟨?_, List.nil_subset _⟩⟩
  · exact h.mem_compatible htarget (hs htarget) (by simp) (hs (by simp)) hX
      (h.not_opposes (q := lowY) htarget (by simp) (by simp) hY hXY.symm)
  · exact h.mem_compatible htarget (hs htarget) (by simp) (hs (by simp)) hY
      (h.not_opposes (q := lowX) htarget (by simp) (by simp) hX hXY)

end BoundedSum

/-- **Something is found to contradict a rule exactly when the rule is in a minimal conflict without
the culprits of the rules that are compatible with it.** There are no culprits when those rules can
hold together. The rule itself must be able to hold; the limit on the rules that are removed
together is an integer, as settings declare it. -/
theorem Oracle.exists_contradictedBy_nonempty_iff (o : Oracle Rat) (s : RuleSet Rat)
    (hrules : KindConsistent s.rules)
    (hnames : ∀ p, Program.ofRules s.rules o.settings = .ok p → (p.vars.map (·.name)).Nodup)
    (hsolver : o.solver.Exact o.settings) (hlimit : o.settings.maxRemovals.IsInteger)
    {t : Rule Rat} (ht : t ∈ s.rules) (htarget : Satisfiable o.settings [t]) :
    ∃ names culprits, (o.contradictedBy s t.name).outcome = .ok names ∧
      o.culprits (s.compatible o.settings t) = .ok culprits ∧
      (Satisfiable o.settings (s.compatible o.settings t).rules → culprits = []) ∧
      (names ≠ [] ↔ ∃ conflict ⊆ (s.without culprits).rules, t ∈ conflict ∧
        IsMinimalConflict o.settings conflict) := by
  obtain ⟨L, hL, hfits, -⟩ := hrules.exists_apart hnames
  obtain ⟨names, culprits, core, houtcome, hsublist, hculprits, hrepair, hcoreSub, hcases, hmem⟩ :=
    exists_contradictedBy hsolver hL hfits hlimit ht htarget
  have hkept : ∀ r ∈ s.rules, r ∉ (s.compatible o.settings t).rules →
      r ∈ (s.without culprits).rules := fun r hr =>
    RuleSet.mem_without_of_not_mem_compatible hrepair.sublist.subset hr
  have htKept : t ∈ (s.without culprits).rules :=
    hkept t ht fun h => (RuleSet.mem_compatible.mp h).2.1 rfl
  refine ⟨names, culprits, houtcome, hculprits, hrepair.eq_nil_iff.mpr, fun hne => ?_, ?_⟩
  · obtain ⟨n, hn⟩ := List.exists_mem_of_ne_nil _ hne
    obtain ⟨r, hr, rfl⟩ := RuleSet.mem_names.mp (hsublist.subset hn)
    rcases (hmem r hr).mp hn with hopposes | hcore
    · refine ⟨[t, r], ?_, List.mem_cons_self, isMinimalConflict_pair htarget hopposes.1 hopposes.2⟩
      have hrKept := hkept r hr fun h => hopposes.2 (RuleSet.mem_compatible.mp h).2.2.2
      exact List.cons_subset.mpr ⟨htKept, List.cons_subset.mpr ⟨hrKept, List.nil_subset _⟩⟩
    · rcases hcases with ⟨rfl, -⟩ | ⟨-, hconflict⟩
      · cases hcore
      · refine ⟨t :: core, List.cons_subset.mpr ⟨htKept, fun q hq => ?_⟩, List.mem_cons_self,
          hconflict⟩
        obtain ⟨hq, hnot⟩ := RuleSet.mem_without.mp (hcoreSub.subset hq)
        exact RuleSet.mem_without.mpr ⟨(RuleSet.mem_compatible.mp hq).1, hnot⟩
  · rintro ⟨conflict, hsubset, htMem, hconflict⟩ rfl
    -- no rule opposes the target, so the members of the conflict are among those left over
    have hnone : ∀ r ∈ s.rules, ¬ (t.Opposes o.settings r ∨ r ∈ core) := fun r hr h =>
      List.not_mem_nil ((hmem r hr).mpr h)
    have hsettled : ∀ r ∈ conflict, r ≠ t →
        r ∈ ((s.compatible o.settings t).without culprits).rules := by
      intro r hr hne
      obtain ⟨hrule, hnot⟩ := RuleSet.mem_without.mp (hsubset hr)
      exact RuleSet.mem_without.mpr ⟨hconflict.mem_compatible htMem ht hr hrule hne fun h =>
        hnone r hrule (.inl h), hnot⟩
    rcases hcases with ⟨-, hsat⟩ | ⟨hne, -⟩
    · refine hconflict.unsatisfiable (hsat.mono fun r hr => ?_)
      rcases eq_or_ne r t with rfl | hne
      · exact List.mem_cons_self
      · exact List.mem_cons_of_mem _ (hsettled r hr hne)
    · obtain ⟨r, hr⟩ := List.exists_mem_of_ne_nil _ hne
      exact hnone r (RuleSet.mem_compatible.mp (RuleSet.mem_without.mp (hcoreSub.subset hr)).1).1
        (.inr hr)

/-- A sum is contradicted by two bounds together. -/
theorem Oracle.exists_contradictedBy_nonempty_iff_sum :
    let s : RuleSet Rat := ⟨[BoundedSum.lowX, BoundedSum.lowY, BoundedSum.zero], by decide⟩
    let solver := Solver.hinted BoundedSum.points
    KindConsistent s.rules ∧ ∃ settings, Settings.default = .ok settings ∧
      (∃ p, Program.ofRules s.rules settings = .ok p ∧ (p.vars.map (·.name)).Nodup) ∧
      solver.Exact settings ∧ settings.maxRemovals.IsInteger ∧
      Satisfiable settings [BoundedSum.zero] ∧
      IsMinimalConflict settings [BoundedSum.zero, BoundedSum.lowX, BoundedSum.lowY] ∧
      ∃ names, (Oracle.contradictedBy ⟨solver, settings⟩ s "zero").outcome = .ok names ∧
        names ≠ [] := by
  intro s solver
  have hkinds : KindConsistent s.rules := by decide +kernel
  have hsome : (Settings.default (K := Rat)).toOption.any (fun settings =>
      (BoundedSum.pairs.all fun rules => Oracle.verdict ⟨solver, settings⟩ rules "") &&
        (decide settings.maxRemovals.IsInteger &&
          (Program.ofRules s.rules settings).toOption.any fun p =>
            decide (p.vars.map (·.name)).Nodup)) = true := by
    decide +kernel
  obtain ⟨settings, hsettings, hall⟩ := Outcome.exists_of_any_toOption hsome
  rw [Bool.and_eq_true, Bool.and_eq_true, List.all_eq_true, decide_eq_true_eq] at hall
  have hlimit : settings.maxRemovals.IsInteger := hall.2.1
  obtain ⟨p, hp, hnames⟩ := Outcome.exists_of_any_toOption hall.2.2
  have hsolver : solver.Exact settings := Solver.hinted_exact _ settings
  have hconflict := BoundedSum.isMinimalConflict hall.1
  have htarget := BoundedSum.satisfiable_zero hconflict
  obtain ⟨names, culprits, houtcome, -, hnone, hiff⟩ :=
    Oracle.exists_contradictedBy_nonempty_iff ⟨solver, settings⟩ s hkinds (fun q hq => by
      obtain rfl := Except.ok.inj (hp.symm.trans hq)
      exact of_decide_eq_true hnames) hsolver hlimit (t := BoundedSum.zero) (by simp [s]) htarget
  refine ⟨hkinds, settings, hsettings, ⟨p, hp, of_decide_eq_true hnames⟩, hsolver, hlimit,
    htarget, hconflict, names, houtcome, hiff.mpr ⟨_, ?_, List.mem_cons_self, hconflict⟩⟩
  -- the bounds can hold together, so nothing is left out
  have hothers : ∀ r ∈ (s.compatible settings BoundedSum.zero).rules,
      r ∈ [BoundedSum.zero, BoundedSum.lowX, BoundedSum.lowY] := fun r hr => by
    simpa [s, or_comm, or_left_comm] using (RuleSet.mem_compatible.mp hr).1
  rw [hnone (hconflict.minimal _ hothers BoundedSum.zero List.mem_cons_self fun h =>
    (RuleSet.mem_compatible.mp h).2.1 rfl), RuleSet.without_nil]
  simp [s]

/-- With an upper bound for `x` too, the lower one is left out before the joint conflict is sought.
Nothing is found, although the sum is in a minimal conflict. -/
theorem Oracle.contradictedBy_misses_conflict :
    let s : RuleSet Rat :=
      ⟨[BoundedSum.lowX, BoundedSum.lowY, BoundedSum.highX, BoundedSum.zero], by decide⟩
    let solver := Solver.hinted BoundedSum.points
    KindConsistent s.rules ∧ ∃ settings, Settings.default = .ok settings ∧
      (∃ p, Program.ofRules s.rules settings = .ok p ∧ (p.vars.map (·.name)).Nodup) ∧
      solver.Exact settings ∧ Satisfiable settings [BoundedSum.zero] ∧
      (∃ conflict ⊆ s.rules, BoundedSum.zero ∈ conflict ∧ IsMinimalConflict settings conflict) ∧
      (Oracle.contradictedBy ⟨solver, settings⟩ s "zero").outcome = .ok [] := by
  intro s solver
  have hkinds : KindConsistent s.rules := by decide +kernel
  have hsome : (Settings.default (K := Rat)).toOption.any (fun settings =>
      (BoundedSum.pairs.all fun rules => Oracle.verdict ⟨solver, settings⟩ rules "") &&
        (decide ((Oracle.contradictedBy ⟨solver, settings⟩ s "zero").outcome.toOption = some []) &&
          (Program.ofRules s.rules settings).toOption.any fun p =>
            decide (p.vars.map (·.name)).Nodup)) = true := by
    decide +kernel
  obtain ⟨settings, hsettings, hall⟩ := Outcome.exists_of_any_toOption hsome
  rw [Bool.and_eq_true, Bool.and_eq_true, List.all_eq_true, decide_eq_true_eq] at hall
  obtain ⟨p, hp, hnames⟩ := Outcome.exists_of_any_toOption hall.2.2
  have hconflict := BoundedSum.isMinimalConflict hall.1
  refine ⟨hkinds, settings, hsettings, ⟨p, hp, of_decide_eq_true hnames⟩,
    Solver.hinted_exact _ settings, BoundedSum.satisfiable_zero hconflict,
    ⟨_, by simp [s], List.mem_cons_self, hconflict⟩, Outcome.eq_ok_of_toOption hall.2.1⟩

open Classical in
/-- **The rules that oppose a rule are listed, and one minimal conflict of other rules with it.**
They are listed in the order of declaration. The conflict may be missing, but not if the compatible
rules can hold together and not with the rule. Nothing is listed for a rule that cannot hold; there
is a warning instead.

The limit on the rules that are removed together is an integer, as settings declare it. -/
theorem Oracle.exists_contradictedBy_eq (o : Oracle Rat) (s : RuleSet Rat)
    (hrules : KindConsistent s.rules)
    (hnames : ∀ p, Program.ofRules s.rules o.settings = .ok p → (p.vars.map (·.name)).Nodup)
    (hsolver : o.solver.Exact o.settings) (hlimit : o.settings.maxRemovals.IsInteger)
    {t : Rule Rat} (ht : t ∈ s.rules) :
    (Satisfiable o.settings [t] → ∃ core, core.Sublist s.rules ∧
        (∀ r ∈ core, r.name ≠ t.name ∧ ¬ t.Opposes o.settings r) ∧
        (core = [] ∨ IsMinimalConflict o.settings (t :: core)) ∧
        (Satisfiable o.settings (s.compatible o.settings t).rules →
          ¬ Satisfiable o.settings (t :: (s.compatible o.settings t).rules) → core ≠ []) ∧
        o.contradictedBy s t.name = ⟨.ok ((s.rules.filter fun r =>
          decide (r.name ≠ t.name ∧ t.Opposes o.settings r ∨ r ∈ core)).map (·.name)), []⟩) ∧
      (¬ Satisfiable o.settings [t] →
        o.contradictedBy s t.name = ⟨.ok [], [.infeasibleRule t.name]⟩) := by
  obtain ⟨L, hL, hfits, -⟩ := hrules.exists_apart hnames
  refine ⟨fun htarget => ?_, contradictedBy_of_not_satisfiable hsolver hL hfits ht⟩
  obtain ⟨culprits, core, houtcome, -, hrepair, hsublist, hcases⟩ :=
    exists_core hsolver hL hfits hlimit ht htarget
  have hcompatible : ∀ r ∈ core, r ∈ (s.compatible o.settings t).rules := fun r hr =>
    (RuleSet.mem_without.mp (hsublist.subset hr)).1
  refine ⟨core, hsublist.trans (List.filter_sublist.trans List.filter_sublist), fun r hr => ?_,
    hcases.imp And.left And.right, ?_, ?_⟩
  · obtain ⟨-, hname, -, hsat⟩ := RuleSet.mem_compatible.mp (hcompatible r hr)
    exact ⟨hname, fun hopposes => hopposes.2 hsat⟩
  · -- nothing is left out of rules that can hold together
    rintro hsat hconflict rfl
    rw [hrepair.eq_nil_iff.mpr hsat, RuleSet.without_nil] at hcases
    exact hcases.elim (fun h => hconflict h.2) fun h => h.1 rfl
  · have hwarnings := contradictedBy_warnings hsolver hL hfits ht
    rw [if_pos htarget] at hwarnings
    have hfilter : (s.rules.filter fun r => decide (t.Opposes o.settings r ∨ r ∈ core)) =
        s.rules.filter fun r =>
          decide (r.name ≠ t.name ∧ t.Opposes o.settings r ∨ r ∈ core) := by
      refine List.filter_congr fun r hr => decide_eq_decide.mpr (or_congr_left ?_)
      exact (and_iff_right_of_imp (Rule.Opposes.name_ne ht hr)).symm
    rw [← hfilter, ← houtcome, ← hwarnings]

/-- Both bounds are listed for a sum, which conflicts with them together only. -/
theorem Oracle.exists_contradictedBy_eq_sum :
    let s : RuleSet Rat := ⟨[BoundedSum.lowX, BoundedSum.lowY, BoundedSum.zero], by decide⟩
    let solver := Solver.hinted BoundedSum.points
    KindConsistent s.rules ∧ ∃ settings, Settings.default = .ok settings ∧
      (∃ p, Program.ofRules s.rules settings = .ok p ∧ (p.vars.map (·.name)).Nodup) ∧
      solver.Exact settings ∧ settings.maxRemovals.IsInteger ∧
      Oracle.contradictedBy ⟨solver, settings⟩ s "zero" = ⟨.ok ["low x", "low y"], []⟩ := by
  intro s solver
  have hkinds : KindConsistent s.rules := by decide +kernel
  have hsome : (Settings.default (K := Rat)).toOption.any (fun settings =>
      (BoundedSum.pairs.all fun rules => Oracle.verdict ⟨solver, settings⟩ rules "") &&
        (decide settings.maxRemovals.IsInteger &&
          (Program.ofRules s.rules settings).toOption.any fun p =>
            decide (p.vars.map (·.name)).Nodup)) = true := by
    decide +kernel
  obtain ⟨settings, hsettings, hall⟩ := Outcome.exists_of_any_toOption hsome
  rw [Bool.and_eq_true, Bool.and_eq_true, List.all_eq_true, decide_eq_true_eq] at hall
  have hlimit : settings.maxRemovals.IsInteger := hall.2.1
  obtain ⟨p, hp, hnames⟩ := Outcome.exists_of_any_toOption hall.2.2
  have hsolver : solver.Exact settings := Solver.hinted_exact _ settings
  have hconflict := BoundedSum.isMinimalConflict hall.1
  refine ⟨hkinds, settings, hsettings, ⟨p, hp, of_decide_eq_true hnames⟩, hsolver, hlimit, ?_⟩
  obtain ⟨hfeasible, -⟩ :=
    Oracle.exists_contradictedBy_eq ⟨solver, settings⟩ s hkinds (fun q hq => by
      obtain rfl := Except.ok.inj (hp.symm.trans hq)
      exact of_decide_eq_true hnames) hsolver hlimit (t := BoundedSum.zero) (by simp [s])
  obtain ⟨core, hsublist, hothers, hcases, hne, heq⟩ :=
    hfeasible (BoundedSum.satisfiable_zero hconflict)
  have hsubset : s.rules ⊆ [BoundedSum.zero, BoundedSum.lowX, BoundedSum.lowY] := fun r hr => by
    simpa [s, or_comm, or_left_comm] using hr
  have hbounds : [BoundedSum.lowX, BoundedSum.lowY] ⊆
      (s.compatible settings BoundedSum.zero).rules :=
    BoundedSum.bounds_subset_compatible (by simp [s]) hconflict
  have hcore : IsMinimalConflict settings (BoundedSum.zero :: core) := by
    refine hcases.resolve_left (hne (hconflict.minimal _ (fun r hr => ?_) BoundedSum.zero ?_ ?_)
      fun h => hconflict.unsatisfiable (h.mono (List.cons_subset_cons _ hbounds)))
    · exact hsubset (RuleSet.mem_compatible.mp hr).1
    · exact List.mem_cons_self
    · exact fun h => (RuleSet.mem_compatible.mp h).2.1 rfl
  -- the core is a conflict, so it needs both bounds
  have hmem : ∀ q ∈ [BoundedSum.lowX, BoundedSum.lowY], q ∈ core := by
    intro q hq
    by_contra hnot
    refine hcore.unsatisfiable (hconflict.minimal _ (List.cons_subset.mpr ⟨List.mem_cons_self,
      List.Subset.trans hsublist.subset hsubset⟩) q (List.mem_cons_of_mem _ hq) ?_)
    refine List.not_mem_cons_of_ne_of_not_mem (fun heq => ?_) hnot
    exact (RuleSet.mem_compatible.mp (hbounds hq)).2.1 (congrArg Rule.name heq)
  have hzero : BoundedSum.zero ∉ core := fun h => (hothers _ h).1 rfl
  refine heq.trans ?_
  simp [s, hmem, hzero]
  exact ⟨rfl, rfl⟩

end RuleAudit
