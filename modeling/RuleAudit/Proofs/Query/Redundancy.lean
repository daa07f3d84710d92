import RuleAudit.Proofs.Query.Hinted
import RuleAudit.Proofs.Query.Verdict
import RuleAudit.Proofs.RuleSet
import RuleAudit.Query.Implication

/-!
# Removing redundant rules

Rules are looked at one after the other, and each is dropped if it follows from the ones still kept
and the ones not looked at yet. So a dropped rule follows from the kept rules together with the
rules dropped after it (`pruned_of_dropped`). It need not follow from the kept rules alone: to
follow from others, a rule must not hold together with them *reversed*, and both a rule and its
opposite keep a distance of `epsilon` from their strict boundaries. A valuation can lie in the gap
between them, so following is not transitive. Where no rule that is dropped later has a gap, it is
(`tightAt_of_pruned`).

A kept rule did not follow from rules of which only fewer are left in the end, so it does not follow
from these either (`not_followsFrom_of_pruned`): one pass is enough
(`Oracle.exists_removeRedundancy_irredundant`).
-/

namespace RuleAudit

/-! ### Opposites and gaps -/

namespace Rule

variable {r : Rule Rat} {settings : Settings Rat} {v : Valuation}

/-- The rule has an empty term. -/
def AlwaysHolds (r : Rule Rat) : Prop :=
  r.isTautology = .ok true

theorem AlwaysHolds.tightAt (h : r.AlwaysHolds) : r.TightAt settings v := by
  obtain ⟨d, hd, hempty⟩ := Outcome.bind_eq_ok.mp h
  exact tightAt_of_tautology hd (Except.ok.inj hempty)

/-- The valuation is too close to a strict boundary for the rule and for its opposite. -/
def InGap (settings : Settings Rat) (v : Valuation) (r : Rule Rat) : Prop :=
  ¬ r.TightAt settings v ∧ ∀ n, r.opposite = .ok n → ¬ n.TightAt settings v

/-- A rule follows from others that cannot hold together with its opposite. -/
def FollowsFrom (settings : Settings Rat) (others : List (Rule Rat)) (r : Rule Rat) : Prop :=
  r.AlwaysHolds ∨ ∀ n, r.opposite = .ok n → ¬ Satisfiable settings (others ++ [n])

theorem FollowsFrom.mono {others others' : List (Rule Rat)} (h : r.FollowsFrom settings others)
    (hothers : others ⊆ others') : r.FollowsFrom settings others' :=
  h.imp_right fun hunsat n hn hsat => hunsat n hn (hsat.mono (List.append_subset.mpr
    ⟨List.subset_append_of_subset_left _ hothers, List.subset_append_right _ _⟩))

/-- What follows from rules is tight with them, outside its gap. -/
theorem FollowsFrom.tightAt {others : List (Rule Rat)} (h : r.FollowsFrom settings others)
    (hv : Admissible settings others v) (hgap : ¬ InGap settings v r) : r.TightAt settings v := by
  rcases h with halways | hunsat
  · exact halways.tightAt
  · by_contra hloose
    refine hgap ⟨hloose, fun n hn htight => hunsat n hn ⟨v, admissible_append.mpr ⟨hv, ?_⟩⟩⟩
    exact List.forall_mem_singleton.mpr htight

/-- Rules about labels have no gap. -/
theorem IsCategorical.not_inGap {L : Lexicon} (h : r.IsCategorical) (hr : r.Fits L) :
    ¬ InGap settings v r := by
  rintro ⟨hloose, hopposite⟩
  obtain ⟨d, hd, -⟩ := id hr
  obtain ⟨n, hn, ⟨e, he, -⟩, heval, hmembership⟩ := hr.exists_opposite
  refine hopposite n hn ((IsCategorical.tightAt_iff_eval (hmembership h) he).mpr ?_)
  rw [h.tightAt_iff_eval hd, Bool.not_eq_true] at hloose
  rw [heval v, hloose]
  rfl

/-- A rule that is tight only where another one is true cannot hold with the opposite of that. -/
theorem Fits.not_satisfiable_opposite {L : Lexicon} {others : List (Rule Rat)} {n q : Rule Rat}
    (hr : r.Fits L) (hn : r.opposite = .ok n) (hq : q ∈ others)
    (h : ∀ v, Admissible settings [q] v → r.expr.eval .exact v = true) :
    ¬ Satisfiable settings (others ++ [n]) := by
  rintro ⟨v, hv⟩
  obtain ⟨m, hm, -, heval, -⟩ := hr.exists_opposite
  obtain rfl := Except.ok.inj (hn.symm.trans hm)
  obtain ⟨hothers, hopposite⟩ := admissible_append.mp hv
  have htrue := h v (hothers.mono (List.cons_subset.mpr ⟨hq, List.nil_subset _⟩))
  have hfalse := (List.forall_mem_singleton.mp hopposite).eval
  rw [heval v, htrue] at hfalse
  cases hfalse

/-- A rule follows from another one that is tight only where it is true. -/
theorem Fits.followsFrom_of_mem {L : Lexicon} {others : List (Rule Rat)} {q : Rule Rat}
    (hr : r.Fits L) (hq : q ∈ others)
    (h : ∀ v, Admissible settings [q] v → r.expr.eval .exact v = true) :
    r.FollowsFrom settings others :=
  .inr fun _ hn => hr.not_satisfiable_opposite hn hq h

end Rule

/-! ### Dropping rules one after the other -/

section Pruned

variable {K : Type} [Scalar K] (redundant : List (Rule K) → Rule K → Bool)

/-- The rules that are kept when each of the later ones is dropped if it is redundant. -/
def pruned : List (Rule K) → List (Rule K) → List (Rule K)
  | kept, [] => kept
  | kept, r :: rest => if redundant (kept ++ rest) r then pruned kept rest
      else pruned (kept ++ [r]) rest

variable {redundant} {kept rest : List (Rule K)}

/-- What was kept stays, and is followed by some of the rest. -/
theorem exists_pruned (redundant : List (Rule K) → Rule K → Bool) (kept rest : List (Rule K)) :
    ∃ more, more.Sublist rest ∧ pruned redundant kept rest = kept ++ more := by
  induction rest generalizing kept with
  | nil => exact ⟨[], .slnil, (List.append_nil _).symm⟩
  | cons r rest ih =>
    rw [pruned]
    split
    · obtain ⟨more, hmore, heq⟩ := ih kept
      exact ⟨more, hmore.cons r, heq⟩
    · obtain ⟨more, hmore, heq⟩ := ih (kept ++ [r])
      exact ⟨r :: more, hmore.cons_cons r, by rw [heq, List.append_assoc, List.singleton_append]⟩

theorem subset_pruned : kept ⊆ pruned redundant kept rest := by
  obtain ⟨more, -, heq⟩ := exists_pruned redundant kept rest
  rw [heq]
  exact List.subset_append_left _ _

theorem pruned_subset : pruned redundant kept rest ⊆ kept ++ rest := by
  obtain ⟨more, hmore, heq⟩ := exists_pruned redundant kept rest
  rw [heq]
  exact List.append_subset.mpr ⟨List.subset_append_left _ _,
    List.subset_append_of_subset_right _ hmore.subset⟩

theorem pruned_sublist : (pruned redundant [] rest).Sublist rest := by
  obtain ⟨more, hmore, heq⟩ := exists_pruned redundant [] rest
  rwa [heq, List.nil_append]

/-- After looking at some rules, the others are looked at in the same way. -/
theorem exists_pruned_append (before : List (Rule K)) :
    ∃ kept' ⊆ kept ++ before,
      pruned redundant kept (before ++ rest) = pruned redundant kept' rest := by
  induction before generalizing kept with
  | nil => exact ⟨kept, List.subset_append_left _ _, rfl⟩
  | cons r before ih =>
    rw [List.cons_append, pruned]
    split
    · obtain ⟨kept', hkept', heq⟩ := @ih kept
      refine ⟨kept', List.Subset.trans hkept' (List.append_subset.mpr ⟨?_, ?_⟩), heq⟩
      · exact List.subset_append_left _ _
      · exact List.subset_append_of_subset_right _ (List.subset_cons_self _ _)
    · obtain ⟨kept', hkept', heq⟩ := @ih (kept ++ [r])
      exact ⟨kept', by rwa [List.append_cons], heq⟩

/-- A dropped rule is redundant among the kept rules and the ones after it. -/
theorem pruned_of_dropped {before after : List (Rule K)} {d : Rule K}
    (hd : d ∉ pruned redundant kept (before ++ d :: after)) :
    ∃ kept', pruned redundant kept (before ++ d :: after) = pruned redundant kept' after ∧
      redundant (kept' ++ after) d = true := by
  obtain ⟨kept', -, heq⟩ : ∃ kept' ⊆ kept ++ before, pruned redundant kept (before ++ d :: after) =
      pruned redundant kept' (d :: after) := exists_pruned_append before
  rw [heq, pruned] at hd ⊢
  split at hd
  · next hredundant =>
    rw [if_pos hredundant]
    exact ⟨kept', rfl, hredundant⟩
  · exact absurd (subset_pruned (List.mem_append_right _ (List.mem_singleton_self d))) hd

/-- A rule that is redundant because of later ones is dropped, whatever was kept before it. -/
theorem not_mem_pruned {before after : List (Rule K)} {d : Rule K}
    (hnodup : (before ++ d :: after).Nodup)
    (hd : ∀ others ⊆ before ++ after, after ⊆ others → redundant others d = true) :
    d ∉ pruned redundant [] (before ++ d :: after) := by
  obtain ⟨kept, hkept, heq⟩ : ∃ kept ⊆ [] ++ before, pruned redundant [] (before ++ d :: after) =
      pruned redundant kept (d :: after) := exists_pruned_append before
  rw [List.nil_append] at hkept
  have hsubset : kept ++ after ⊆ before ++ after := List.append_subset.mpr
    ⟨List.subset_append_of_subset_left _ hkept, List.subset_append_right _ _⟩
  rw [heq, pruned, if_pos (hd _ hsubset (List.subset_append_right _ _))]
  rw [List.nodup_middle, List.nodup_cons] at hnodup
  exact fun hmem => hnodup.1 (hsubset (pruned_subset hmem))

/-- A rule that was not kept already was not redundant among rules that include all others of the
result. -/
theorem not_redundant_of_mem {r : Rule K} (hr : r ∈ pruned redundant kept rest) (hkept : r ∉ kept) :
    ∃ others ⊆ kept ++ rest, redundant others r = false ∧
      ∀ x ∈ pruned redundant kept rest, x ≠ r → x ∈ others := by
  induction rest generalizing kept with
  | nil => exact absurd hr hkept
  | cons s rest ih =>
    rw [pruned] at hr ⊢
    have hsubset : kept ++ rest ⊆ kept ++ s :: rest := List.append_subset.mpr
      ⟨List.subset_append_left _ _,
        List.subset_append_of_subset_right _ (List.subset_cons_self _ _)⟩
    split at hr
    · next hredundant =>
      rw [if_pos hredundant]
      obtain ⟨others, hothers, hneeded, hall⟩ := ih hr hkept
      exact ⟨others, List.Subset.trans hothers hsubset, hneeded, hall⟩
    · next hneeded =>
      rw [if_neg hneeded]
      by_cases hrs : r = s
      · subst hrs
        refine ⟨kept ++ rest, hsubset, Bool.eq_false_iff.mpr hneeded, fun x hx hne => ?_⟩
        have hmem := pruned_subset hx
        simp only [List.append_assoc, List.singleton_append, List.mem_append, List.mem_cons] at hmem
        rcases hmem with hx | rfl | hx
        · exact List.mem_append_left _ hx
        · exact absurd rfl hne
        · exact List.mem_append_right _ hx
      · rw [← List.singleton_append, ← List.append_assoc]
        refine ih hr fun hmem => ?_
        rcases List.mem_append.mp hmem with hmem | hmem
        · exact hkept hmem
        · exact hrs (List.mem_singleton.mp hmem)

/-- When no rule is redundant among the others, all are kept. -/
theorem pruned_eq_append (h : ∀ before r after, rest = before ++ r :: after →
    redundant (kept ++ before ++ after) r = false) : pruned redundant kept rest = kept ++ rest := by
  induction rest generalizing kept with
  | nil => exact (List.append_nil _).symm
  | cons r rest ih =>
    have hneeded : redundant (kept ++ rest) r = false := by
      simpa using h [] r rest rfl
    rw [pruned, if_neg (by simp [hneeded]), ih, List.append_assoc, List.singleton_append]
    intro before s after hrest
    have hneeded := h (r :: before) s after (by rw [hrest, List.cons_append])
    simpa using hneeded

end Pruned

/-- Where none of the dropped rules has a gap, everything that was looked at is tight. -/
theorem tightAt_of_pruned {settings : Settings Rat} {redundant : List (Rule Rat) → Rule Rat → Bool}
    {kept rest : List (Rule Rat)} {v : Valuation}
    (hredundant : ∀ others ⊆ kept ++ rest, ∀ r ∈ rest, redundant others r = true →
      r.FollowsFrom settings others)
    (hv : Admissible settings (pruned redundant kept rest) v)
    (hgap : ∀ e ∈ rest, e ∉ pruned redundant kept rest → ¬ e.InGap settings v) :
    ∀ e ∈ rest, e.TightAt settings v := by
  induction rest generalizing kept with
  | nil => exact fun e he => by cases he
  | cons r rest ih =>
    rw [pruned] at hv hgap
    have hsubset : kept ++ rest ⊆ kept ++ r :: rest := List.append_subset.mpr
      ⟨List.subset_append_left _ _,
        List.subset_append_of_subset_right _ (List.subset_cons_self _ _)⟩
    split at hv
    · next hdropped =>
      rw [if_pos hdropped] at hgap
      have hrest : ∀ e ∈ rest, e.TightAt settings v :=
        ih (fun others hothers s hs => hredundant others (List.Subset.trans hothers hsubset) s
          (List.mem_cons_of_mem r hs)) hv fun e he => hgap e (List.mem_cons_of_mem r he)
      refine List.forall_mem_cons.mpr ⟨?_, hrest⟩
      by_cases hmem : r ∈ pruned redundant kept rest
      · exact hv.tight r hmem
      -- all rules that it was redundant among are tight, the later ones by induction
      refine (hredundant _ hsubset r List.mem_cons_self hdropped).tightAt ?_
        (hgap r List.mem_cons_self hmem)
      exact admissible_append.mpr ⟨hv.mono subset_pruned, hrest⟩
    · next hneeded =>
      rw [if_neg hneeded] at hgap
      refine List.forall_mem_cons.mpr ⟨hv.tight r (subset_pruned ?_), ih ?_ hv ?_⟩
      · exact List.mem_append_right _ (List.mem_singleton_self r)
      · intro others hothers s hs
        rw [List.append_assoc, List.singleton_append] at hothers
        exact hredundant others hothers s (List.mem_cons_of_mem r hs)
      · exact fun e he => hgap e (List.mem_cons_of_mem r he)

section NoneFollows

variable {settings : Settings Rat} {rules before after : List (Rule Rat)} {r : Rule Rat}
  {redundant : List (Rule Rat) → Rule Rat → Bool}
  (hredundant : ∀ others ⊆ rules, ∀ r ∈ rules, (redundant others r = true ↔
    r.FollowsFrom settings others))

include hredundant

/-- After pruning, no rule follows from the others. -/
theorem not_followsFrom_of_pruned (hnodup : (pruned redundant [] rules).Nodup)
    (heq : pruned redundant [] rules = before ++ r :: after) :
    ¬ r.FollowsFrom settings (before ++ after) := by
  intro hfollows
  have hr : r ∈ pruned redundant [] rules := by
    rw [heq]
    exact List.mem_append_right _ List.mem_cons_self
  obtain ⟨others, hothers, hneeded, hall⟩ := not_redundant_of_mem hr (List.not_mem_nil (a := r))
  rw [List.nil_append] at hothers
  -- the other rules of the result are among the ones that it was tested with
  refine Bool.eq_false_iff.mp hneeded ((hredundant others hothers r (pruned_subset hr)).mpr
    (hfollows.mono fun x hx => hall x ?_ ?_))
  · rw [heq, List.mem_append, List.mem_cons]
    exact (List.mem_append.mp hx).imp_right .inr
  · rintro rfl
    rw [heq, List.nodup_middle, List.nodup_cons] at hnodup
    exact hnodup.1 hx

/-- When no rule follows from the others, all are kept. -/
theorem pruned_eq_self (hneeded : ∀ before r after, rules = before ++ r :: after →
    ¬ r.FollowsFrom settings (before ++ after)) : pruned redundant [] rules = rules := by
  rw [pruned_eq_append, List.nil_append]
  intro before r after heq
  have hmem (x : Rule Rat) (hx : x ∈ before ++ r :: after) : x ∈ rules := heq ▸ hx
  rw [List.nil_append, Bool.eq_false_iff]
  refine fun htrue => hneeded before r after heq ?_
  refine (hredundant _ (fun x hx => hmem x ?_) r (hmem r ?_)).mp htrue
  · rw [List.mem_append, List.mem_cons]
    exact (List.mem_append.mp hx).imp_right .inr
  · exact List.mem_append_right _ List.mem_cons_self

end NoneFollows

/-! ### Asking the solver -/

namespace Oracle

variable (o : Oracle Rat) {L : Lexicon} {r : Rule Rat} {rules others : List (Rule Rat)}
  {s : RuleSet Rat}

/-- Whether a rule follows from others; no when the query fails. -/
def redundant (others : List (Rule Rat)) (r : Rule Rat) : Bool :=
  (o.isRedundant others r).toOption.getD false

variable {o} (hsolver : o.solver.Exact o.settings)

include hsolver

private theorem isRedundant_cases (hr : r.Fits L) (hothers : ∀ x ∈ others, x.Fits L) :
    ∃ n, r.opposite = .ok n ∧ (∀ x ∈ others ++ [n], x.Fits L) ∧
      (r.AlwaysHolds ∧ o.isRedundant others r = .ok true ∨
        ¬ r.AlwaysHolds ∧ o.isRedundant others r = .ok
          (!o.verdict (others ++ [n]) ("testing redundancy of '" ++ r.name ++ "'"))) := by
  obtain ⟨n, hn, hfits, -, -⟩ := hr.exists_opposite
  have hall : ∀ x ∈ others ++ [n], x.Fits L :=
    List.forall_mem_append.mpr ⟨hothers, List.forall_mem_singleton.mpr hfits⟩
  refine ⟨n, hn, hall, ?_⟩
  obtain ⟨d, hd, -⟩ := hr
  rw [Rule.AlwaysHolds, isRedundant, Rule.isTautology_eq hd, Outcome.ok_bind]
  by_cases halways : d.any (·.isEmpty) = true
  · rw [if_pos halways, halways]
    exact .inl ⟨rfl, rfl⟩
  · rw [if_neg halways, hn, Outcome.ok_bind, feasible_eq hsolver hall]
    exact .inr ⟨fun h => halways (Except.ok.inj h), rfl⟩

theorem isRedundant_eq (hr : r.Fits L) (hothers : ∀ x ∈ others, x.Fits L) :
    o.isRedundant others r = .ok (o.redundant others r) := by
  obtain ⟨n, -, -, ⟨-, h⟩ | ⟨-, h⟩⟩ := isRedundant_cases hsolver hr hothers <;>
    rw [redundant, h] <;> rfl

theorem redundant_iff (hL : L.Apart) (hr : r.Fits L) (hothers : ∀ x ∈ others, x.Fits L) :
    o.redundant others r = true ↔ r.FollowsFrom o.settings others := by
  obtain ⟨n, hn, hall, ⟨halways, h⟩ | ⟨halways, h⟩⟩ := isRedundant_cases hsolver hr hothers
  · rw [redundant, h]
    exact iff_of_true rfl (.inl halways)
  · have hverdict : o.redundant others r =
        !o.verdict (others ++ [n]) ("testing redundancy of '" ++ r.name ++ "'") := by
      rw [redundant, h]
      rfl
    rw [hverdict, Bool.not_eq_true', verdict_eq_false_iff hsolver hL hall, Rule.FollowsFrom,
      or_iff_right halways]
    refine ⟨fun hunsat m hm => ?_, fun hunsat => hunsat n hn⟩
    obtain rfl := Except.ok.inj (hn.symm.trans hm)
    exact hunsat

theorem prune_eq {kept rest : List (Rule Rat)} (h : ∀ x ∈ kept ++ rest, x.Fits L) :
    o.prune kept rest = .ok (pruned o.redundant kept rest) := by
  induction rest generalizing kept with
  | nil => rfl
  | cons r rest ih =>
    obtain ⟨hkept, hr, hrest⟩ :
        (∀ x ∈ kept, x.Fits L) ∧ r.Fits L ∧ ∀ x ∈ rest, x.Fits L := by
      rwa [List.forall_mem_append, List.forall_mem_cons] at h
    have hothers : ∀ x ∈ kept ++ rest, x.Fits L := List.forall_mem_append.mpr ⟨hkept, hrest⟩
    rw [prune, isRedundant_eq hsolver hr hothers, Outcome.ok_bind, pruned]
    split
    · exact ih hothers
    · refine ih ?_
      rw [List.append_assoc, List.singleton_append]
      exact h

/-- An infeasible set stays; of a feasible one, the redundant rules are dropped one by one. -/
theorem exists_removeRedundancy (h : ∀ r ∈ s.rules, r.Fits L) :
    ∃ t, (o.removeRedundancy s).outcome = .ok t ∧
      if o.verdict s.rules "checking feasibility" then t.rules = pruned o.redundant [] s.rules
      else t = s := by
  rw [removeRedundancy, Reported.outcome_bind]
  have hfeasible : (monadLift (o.isFeasible s) : Reported Rat Bool).outcome =
      .ok (o.verdict s.rules "checking feasibility") := isFeasible_eq hsolver h
  rw [hfeasible, Outcome.ok_bind]
  by_cases hverdict : o.verdict s.rules "checking feasibility" = true
  · have hnodup : ((pruned o.redundant [] s.rules).map (·.name)).Nodup :=
      s.distinct.sublist (pruned_sublist.map _)
    refine ⟨⟨_, hnodup⟩, ?_, by rw [if_pos hverdict]⟩
    rw [hverdict, Bool.not_true, if_neg Bool.false_ne_true, Reported.outcome_lift,
      prune_eq hsolver (L := L) (by simpa using h), Outcome.ok_bind, RuleSet.ofList,
      dif_pos hnodup]
  · rw [Bool.not_eq_true] at hverdict
    refine ⟨s, ?_, by rw [hverdict]; rfl⟩
    rw [hverdict, Bool.not_false, if_pos rfl, Reported.outcome_bind]
    rfl

omit hsolver in
/-- A feasible set is pruned without a warning. -/
theorem removeRedundancy_eq_ok {t : RuleSet Rat} (h : o.isFeasible s = .ok true)
    (ht : (o.removeRedundancy s).outcome = .ok t) : o.removeRedundancy s = ⟨.ok t, []⟩ := by
  have heq : o.removeRedundancy s =
      Reported.lift (o.prune [] s.rules >>= fun rules => RuleSet.ofList rules) := by
    change (Reported.lift (o.isFeasible s) >>= _) = _
    rw [h]
    rfl
  rw [heq] at ht ⊢
  exact Reported.lift_eq_ok ht

/-- A rule that is not a tautology and does not follow from others can fail where they hold. -/
theorem exists_opposite_of_not_followsFrom (hr : r.Fits L) (hothers : ∀ x ∈ others, x.Fits L)
    (hL : L.Apart) (h : ¬ r.FollowsFrom o.settings others) :
    r.isTautology = .ok false ∧ o.isRedundant others r = .ok false ∧
      ∃ n, r.opposite = .ok n ∧ Satisfiable o.settings (others ++ [n]) := by
  obtain ⟨hnever, hsat⟩ := not_or.mp h
  simp only [not_forall, not_not] at hsat
  obtain ⟨n, hn, hsat⟩ := hsat
  refine ⟨?_, ?_, n, hn, hsat⟩
  · obtain ⟨d, hd, -⟩ := hr
    rw [Rule.AlwaysHolds] at hnever
    rw [Rule.isTautology_eq hd] at hnever ⊢
    exact congrArg Except.ok (Bool.eq_false_iff.mpr fun htrue => hnever (congrArg Except.ok htrue))
  · rw [isRedundant_eq hsolver hr hothers, Except.ok.injEq, Bool.eq_false_iff, ne_eq,
      redundant_iff hsolver hL hr hothers]
    exact h

end Oracle

/-- **Dropped rules follow from what is kept and from what is dropped later.** Of a feasible set,
each dropped rule is redundant, by the same test, among the kept rules and all rules after it. It is
redundant among the kept rules alone if no rule that is dropped later has a gap where these hold. -/
theorem Oracle.exists_removeRedundancy_isRedundant (o : Oracle Rat) (s : RuleSet Rat)
    (hrules : KindConsistent s.rules)
    (hnames : ∀ p, Program.ofRules s.rules o.settings = .ok p → (p.vars.map (·.name)).Nodup)
    (hsolver : o.solver.Exact o.settings) (hfeasible : o.isFeasible s = .ok true) :
    ∃ t, (o.removeRedundancy s).outcome = .ok t ∧ t.rules.Sublist s.rules ∧
      ∀ before d after, s.rules = before ++ d :: after → d ∉ t.rules →
        o.isRedundant (t.rules ++ after) d = .ok true ∧
        ((∀ e ∈ after, e ∉ t.rules → ∀ v, Admissible o.settings t.rules v →
            ¬ e.InGap o.settings v) →
          o.isRedundant t.rules d = .ok true) := by
  obtain ⟨L, hL, hfits, -⟩ := hrules.exists_apart hnames
  obtain ⟨t, ht, hpruned⟩ := exists_removeRedundancy hsolver hfits
  rw [verdict_of_isFeasible hfeasible, if_pos rfl] at hpruned
  obtain ⟨more, hmore, hmoreEq⟩ := exists_pruned o.redundant [] s.rules
  have hsublist : t.rules.Sublist s.rules := by
    rw [hpruned, hmoreEq, List.nil_append]
    exact hmore
  refine ⟨t, ht, hsublist, fun before d after hs hd => ?_⟩
  have hmem : ∀ e ∈ d :: after, e ∈ s.rules := fun e he => by
    rw [hs]
    exact List.mem_append_right _ he
  have hdFits : d.Fits L := hfits d (hmem d List.mem_cons_self)
  have hafter : ∀ e ∈ after, e ∈ s.rules := fun e he => hmem e (List.mem_cons_of_mem d he)
  have hkept : ∀ x ∈ t.rules, x.Fits L := fun x hx => hfits x (hsublist.subset hx)
  rw [hs] at hpruned
  obtain ⟨kept, heq, hredundant⟩ := pruned_of_dropped (hpruned ▸ hd)
  have hkeptSubset : kept ⊆ t.rules := by
    rw [hpruned, heq]
    exact subset_pruned
  have hothers : ∀ x ∈ kept ++ after, x.Fits L := List.forall_mem_append.mpr
    ⟨fun x hx => hkept x (hkeptSubset hx), fun x hx => hfits x (hafter x hx)⟩
  have hfollows : d.FollowsFrom o.settings (kept ++ after) :=
    (redundant_iff hsolver hL hdFits hothers).mp hredundant
  have hall : ∀ x ∈ t.rules ++ after, x.Fits L := List.forall_mem_append.mpr
    ⟨hkept, fun x hx => hfits x (hafter x hx)⟩
  constructor
  · rw [isRedundant_eq hsolver hdFits hall]
    refine congrArg Except.ok ((redundant_iff hsolver hL hdFits hall).mpr (hfollows.mono ?_))
    exact List.append_subset.mpr
      ⟨List.subset_append_of_subset_left _ hkeptSubset, List.subset_append_right _ _⟩
  · intro hgap
    rw [isRedundant_eq hsolver hdFits hkept]
    refine congrArg Except.ok ((redundant_iff hsolver hL hdFits hkept).mpr ?_)
    refine hfollows.imp_right fun hunsat n hn => ?_
    -- a valuation for the kept rules and the opposite is tight for the later rules as well
    rintro ⟨v, hv⟩
    obtain ⟨hvKept, htight⟩ := admissible_append.mp hv
    have hlater : ∀ e ∈ after, e.TightAt o.settings v := by
      have hvPruned : Admissible o.settings (pruned o.redundant kept after) v := by
        rw [← heq, ← hpruned]
        exact hvKept
      refine tightAt_of_pruned ?_ hvPruned ?_
      · intro others hsubset r hr hr'
        exact (redundant_iff hsolver hL (hfits r (hafter r hr))
          fun x hx => hothers x (hsubset hx)).mp hr'
      · rw [← heq, ← hpruned]
        exact fun e he hne => hgap e he hne v hvKept
    exact hunsat n hn ⟨v, admissible_append.mpr ⟨admissible_append.mpr
      ⟨hvKept.mono hkeptSubset, hlater⟩, htight⟩⟩

/-- Of two lower bounds the smaller one is dropped, and it is redundant with what is left. -/
theorem Oracle.exists_removeRedundancy_isRedundant_bounds :
    let low : Rule Rat := ⟨"low", .atom (.linear (.canonical [(⟨"x", by decide⟩, 1)] .ge 1)), none,
      by decide +kernel, by simp, none⟩
    let high : Rule Rat := ⟨"high", .atom (.linear (.canonical [(⟨"x", by decide⟩, 1)] .ge 2)),
      none, by decide +kernel, by simp, none⟩
    let s : RuleSet Rat := ⟨[low, high], by decide⟩
    let solver := Solver.hinted [[("num[x]", 2)], [("num[x]", 1)]]
    KindConsistent s.rules ∧ ∃ settings, Settings.default = .ok settings ∧
      Oracle.isFeasible ⟨solver, settings⟩ s = .ok true ∧
      (∃ p, Program.ofRules s.rules settings = .ok p ∧ (p.vars.map (·.name)).Nodup) ∧
      ∃ t, (Oracle.removeRedundancy ⟨solver, settings⟩ s).outcome = .ok t ∧
        t.names = ["high"] ∧ t.rules.Sublist s.rules ∧
        ∀ before d after, s.rules = before ++ d :: after → d ∉ t.rules →
          Oracle.isRedundant ⟨solver, settings⟩ (t.rules ++ after) d = .ok true ∧
          ((∀ e ∈ after, e ∉ t.rules → ∀ v, Admissible settings t.rules v →
              ¬ e.InGap settings v) →
            Oracle.isRedundant ⟨solver, settings⟩ t.rules d = .ok true) := by
  intro low high s solver
  have hkinds : KindConsistent s.rules := by decide +kernel
  have hsome : (Settings.default (K := Rat)).toOption.any (fun settings =>
      decide ((Oracle.isFeasible ⟨solver, settings⟩ s).toOption = some true) &&
        ((Oracle.removeRedundancy ⟨solver, settings⟩ s).outcome.toOption.any (fun t =>
            decide (t.names = ["high"])) &&
          (Program.ofRules s.rules settings).toOption.any fun p =>
            decide (p.vars.map (·.name)).Nodup)) = true := by
    decide +kernel
  obtain ⟨settings, hsettings, hall⟩ := Outcome.exists_of_any_toOption hsome
  rw [Bool.and_eq_true, Bool.and_eq_true, decide_eq_true_eq] at hall
  have hfeasible := Outcome.eq_ok_of_toOption hall.1
  obtain ⟨t, ht, hhigh⟩ := Outcome.exists_of_any_toOption hall.2.1
  obtain ⟨p, hp, hnames⟩ := Outcome.exists_of_any_toOption hall.2.2
  obtain ⟨t', ht', hsublist, hdropped⟩ :=
    Oracle.exists_removeRedundancy_isRedundant ⟨solver, settings⟩ s hkinds (fun q hq => by
      obtain rfl := Except.ok.inj (hp.symm.trans hq)
      exact of_decide_eq_true hnames) (Solver.hinted_exact _ settings) hfeasible
  obtain rfl := Except.ok.inj (ht.symm.trans ht')
  exact ⟨hkinds, settings, hsettings, hfeasible, ⟨p, hp, of_decide_eq_true hnames⟩, t, ht,
    of_decide_eq_true hhigh, hsublist, hdropped⟩

/-- A bound of 1.0008 follows from one of 1, which is moved up to 1.001, and the one of 1 follows
from one of 1.0005. But 1.0005 is below 1.0008: the first rule is lost. -/
theorem Oracle.removeRedundancy_loses_rule :
    let far : Rule Rat := ⟨"far", .atom (.linear (.canonical [(⟨"x", by decide⟩, 1)] .gt
      (10008 / 10000))), none, by decide +kernel, by simp, none⟩
    let near : Rule Rat := ⟨"near", .atom (.linear (.canonical [(⟨"x", by decide⟩, 1)] .gt 1)),
      none, by decide +kernel, by simp, none⟩
    let kept : Rule Rat := ⟨"kept", .atom (.linear (.canonical [(⟨"x", by decide⟩, 1)] .ge
      (10005 / 10000))), none, by decide +kernel, by simp, none⟩
    let s : RuleSet Rat := ⟨[far, near, kept], by decide⟩
    let solver := Solver.hinted [[("num[x]", 2)], [("num[x]", 10005 / 10000)], [("num[x]", 0)]]
    ∃ settings t, Settings.default = .ok settings ∧ solver.Exact settings ∧
      Oracle.isFeasible ⟨solver, settings⟩ s = .ok true ∧
      (Oracle.removeRedundancy ⟨solver, settings⟩ s).outcome = .ok t ∧ t.names = ["kept"] ∧
      Oracle.isRedundant ⟨solver, settings⟩ t.rules far = .ok false := by
  intro far near kept s solver
  have hsome : (Settings.default (K := Rat)).toOption.any (fun settings =>
      decide ((Oracle.isFeasible ⟨solver, settings⟩ s).toOption = some true) &&
        (Oracle.removeRedundancy ⟨solver, settings⟩ s).outcome.toOption.any fun t =>
          decide (t.names = ["kept"]) &&
            decide ((Oracle.isRedundant ⟨solver, settings⟩ t.rules far).toOption =
              some false)) = true := by
    decide +kernel
  obtain ⟨settings, hsettings, hall⟩ := Outcome.exists_of_any_toOption hsome
  rw [Bool.and_eq_true, decide_eq_true_eq] at hall
  obtain ⟨t, ht, hkept⟩ := Outcome.exists_of_any_toOption hall.2
  rw [Bool.and_eq_true, decide_eq_true_eq, decide_eq_true_eq] at hkept
  exact ⟨settings, t, hsettings, Solver.hinted_exact _ settings,
    Outcome.eq_ok_of_toOption hall.1, ht, hkept.1, Outcome.eq_ok_of_toOption hkept.2⟩

/-- **What is left of a feasible set is irredundant.** No rule that is kept is a tautology or
follows from the other ones: these can hold together with its opposite. So removing redundant rules
again changes nothing. A rule is dropped if it is true wherever a later one is tight; of rules that
are satisfied by the same valuations, the first ones go. -/
theorem Oracle.exists_removeRedundancy_irredundant (o : Oracle Rat) (s : RuleSet Rat)
    (hrules : KindConsistent s.rules)
    (hnames : ∀ p, Program.ofRules s.rules o.settings = .ok p → (p.vars.map (·.name)).Nodup)
    (hsolver : o.solver.Exact o.settings) (hfeasible : o.isFeasible s = .ok true) :
    ∃ t, o.removeRedundancy s = ⟨.ok t, []⟩ ∧ t.rules.Sublist s.rules ∧
      (∀ before r after, t.rules = before ++ r :: after →
        r.isTautology = .ok false ∧ o.isRedundant (before ++ after) r = .ok false ∧
          ∃ n, r.opposite = .ok n ∧ Satisfiable o.settings (before ++ after ++ [n])) ∧
      o.removeRedundancy t = ⟨.ok t, []⟩ ∧
      ∀ before r after, s.rules = before ++ r :: after → ∀ q ∈ after,
        (∀ v, Admissible o.settings [q] v → r.expr.eval .exact v = true) → r ∉ t.rules := by
  obtain ⟨L, hL, hfits, -⟩ := hrules.exists_apart hnames
  obtain ⟨t, ht, hpruned⟩ := exists_removeRedundancy hsolver hfits
  rw [verdict_of_isFeasible hfeasible, if_pos rfl] at hpruned
  have hsublist : t.rules.Sublist s.rules := hpruned ▸ pruned_sublist
  have htFits : ∀ r ∈ t.rules, r.Fits L := fun r hr => hfits r (hsublist.subset hr)
  have hredundant {rules : List (Rule Rat)} (hrules : ∀ r ∈ rules, r.Fits L) :
      ∀ others ⊆ rules, ∀ r ∈ rules, (o.redundant others r = true ↔
        r.FollowsFrom o.settings others) := fun others hothers r hr =>
    redundant_iff hsolver hL (hrules r hr) fun x hx => hrules x (hothers hx)
  have hneeded : ∀ before r after, t.rules = before ++ r :: after →
      ¬ r.FollowsFrom o.settings (before ++ after) := fun before r after heq =>
    not_followsFrom_of_pruned (hredundant hfits) (hpruned ▸ t.distinct.of_map) (hpruned ▸ heq)
  refine ⟨t, removeRedundancy_eq_ok hfeasible ht, hsublist, fun before r after heq => ?_, ?_, ?_⟩
  · rw [heq, List.forall_mem_append, List.forall_mem_cons] at htFits
    obtain ⟨hbefore, hr, hafter⟩ := htFits
    exact exists_opposite_of_not_followsFrom hsolver hr
      (List.forall_mem_append.mpr ⟨hbefore, hafter⟩) hL (hneeded before r after heq)
  · have hagain : o.isFeasible t = .ok true := (isFeasible_iff hsolver hL htFits).mpr
      (((isFeasible_iff hsolver hL hfits).mp hfeasible).mono hsublist.subset)
    obtain ⟨u, hu, hpruned'⟩ := exists_removeRedundancy hsolver htFits
    rw [verdict_of_isFeasible hagain, if_pos rfl, pruned_eq_self (hredundant htFits) hneeded]
      at hpruned'
    rw [RuleSet.eq_of_rules_eq hpruned'] at hu
    exact removeRedundancy_eq_ok hagain hu
  · -- the later rule is not looked at yet when the earlier one is tested
    intro before r after heq q hq hqr
    have hr : r ∈ s.rules := heq ▸ List.mem_append_right _ List.mem_cons_self
    rw [hpruned, heq]
    refine not_mem_pruned (heq ▸ s.distinct.of_map) fun others hothers hafter => ?_
    refine (hredundant hfits others (fun x hx => ?_) r hr).mpr
      ((hfits r hr).followsFrom_of_mem (hafter hq) hqr)
    rw [heq, List.mem_append, List.mem_cons]
    exact (List.mem_append.mp (hothers hx)).imp_right .inr

/-- Of two bounds that say the same, the second one is kept. -/
theorem Oracle.exists_removeRedundancy_irredundant_scaled :
    let once : Rule Rat := ⟨"once", .atom (.linear (.canonical [(⟨"x", by decide⟩, 1)] .ge 1)),
      none, by decide +kernel, by simp, none⟩
    let twice : Rule Rat := ⟨"twice", .atom (.linear (.canonical [(⟨"x", by decide⟩, 2)] .ge 2)),
      none, by decide +kernel, by simp, none⟩
    let s : RuleSet Rat := ⟨[once, twice], by decide⟩
    let solver := Solver.hinted [[("num[x]", 1)], [("num[x]", 0)]]
    KindConsistent s.rules ∧ ∃ settings, Settings.default = .ok settings ∧
      (∃ p, Program.ofRules s.rules settings = .ok p ∧ (p.vars.map (·.name)).Nodup) ∧
      solver.Exact settings ∧ Oracle.isFeasible ⟨solver, settings⟩ s = .ok true ∧
      (∀ v, Admissible settings [twice] v → once.expr.eval .exact v = true) ∧
      ∃ t, Oracle.removeRedundancy ⟨solver, settings⟩ s = ⟨.ok t, []⟩ ∧ t.names = ["twice"] ∧
        once ∉ t.rules ∧ Oracle.removeRedundancy ⟨solver, settings⟩ t = ⟨.ok t, []⟩ := by
  intro once twice s solver
  have hkinds : KindConsistent s.rules := by decide +kernel
  have hsome : (Settings.default (K := Rat)).toOption.any (fun settings =>
      decide ((Oracle.isFeasible ⟨solver, settings⟩ s).toOption = some true) &&
        ((Program.ofRules s.rules settings).toOption.any fun p =>
          decide (p.vars.map (·.name)).Nodup) &&
        (Oracle.removeRedundancy ⟨solver, settings⟩ s).outcome.toOption.any fun t =>
          decide (t.names = ["twice"])) = true := by
    decide +kernel
  obtain ⟨settings, hsettings, hall⟩ := Outcome.exists_of_any_toOption hsome
  rw [Bool.and_eq_true, Bool.and_eq_true, decide_eq_true_eq] at hall
  obtain ⟨⟨hfeasible, hprogram⟩, hremoved⟩ := hall
  have hfeasible := Outcome.eq_ok_of_toOption hfeasible
  obtain ⟨p, hp, hnames⟩ := Outcome.exists_of_any_toOption hprogram
  obtain ⟨u, hu, huNames⟩ := Outcome.exists_of_any_toOption hremoved
  have himplies : ∀ v, Admissible settings [twice] v → once.expr.eval .exact v = true := by
    intro v hv
    have htwice := (hv.tight twice (List.mem_singleton_self _)).eval
    have hterms : (LinearClause.canonical [((⟨"x", by decide⟩ : VarName), (2 : Rat))] .ge
        2).terms = [("x", 2)] := by decide +kernel
    have hterms' : (LinearClause.canonical [((⟨"x", by decide⟩ : VarName), (1 : Rat))] .ge
        1).terms = [("x", 1)] := by decide +kernel
    simp only [twice, once, Expr.eval, Clause.eval, LinearClause.sumAt, hterms, hterms',
      Comparison.exact_eq] at htwice ⊢
    have hle : 2 ≤ 2 * v.number "x" := by simpa [LinearClause.canonical] using htwice
    simpa [LinearClause.canonical] using (show 1 ≤ v.number "x" by linarith)
  obtain ⟨t, ht, -, -, hagain, hlast⟩ :=
    Oracle.exists_removeRedundancy_irredundant ⟨solver, settings⟩ s hkinds (fun q hq => by
      obtain rfl := Except.ok.inj (hp.symm.trans hq)
      exact of_decide_eq_true hnames) (Solver.hinted_exact _ settings) hfeasible
  rw [ht] at hu
  obtain rfl := Except.ok.inj hu
  exact ⟨hkinds, settings, hsettings, ⟨p, hp, of_decide_eq_true hnames⟩,
    Solver.hinted_exact _ settings, hfeasible, himplies, t, ht, of_decide_eq_true huNames,
    hlast [] once [twice] rfl twice (List.mem_singleton_self _) himplies, hagain⟩

end RuleAudit
