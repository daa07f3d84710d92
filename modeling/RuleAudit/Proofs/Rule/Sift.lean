import RuleAudit.Proofs.Rule.Collect
import RuleAudit.Proofs.Rule.Flaws

/-!
# What is kept of some rules

Rules are collected first come, first served. A rule is kept exactly when it joins the rules that
were kept before it (`Collected.IsConsistent.exists_add_iff`): it has a normal form, its name is
new, and it uses every variable as they do. A rule that is not kept leaves nothing behind but a
warning, so a lenient run over some rules is a run over those that it keeps, and a strict run ends
with the error of the first of the others (`RuleSet.collect_sifts`).
-/

namespace RuleAudit

open Outcome

variable {K : Type} [Scalar K] {kept rules final : List (Rule K)} {r : Rule K} {e : Error K}

/-! ### Rules that join others -/

/-- A rule fits with the rules that are kept already. -/
structure Rule.Joins (kept : List (Rule K)) (r : Rule K) : Prop where
  /-- Its name is new. -/
  named : ∀ q ∈ kept, q.name ≠ r.name
  /-- It has a normal form of clauses that use every variable with one kind. -/
  normal : KindConsistent [r]
  /-- It uses every variable with the kind that the other rules use it with. -/
  agrees : ∀ q ∈ kept, ∀ n kind kind', (n, kind) ∈ q.clauses.flatMap Clause.uses →
    (n, kind') ∈ r.clauses.flatMap Clause.uses → kind = kind'

/-- What is wrong with a rule that does not fit. -/
inductive Rule.Misfit (kept : List (Rule K)) (r : Rule K) : Error K → Prop
  | duplicate {q : Rule K} (hq : q ∈ kept) (hname : q.name = r.name) :
      Misfit kept r (.definition ⟨.text r.name, none⟩ .duplicateRule)
  | undefined {e : Error K} (he : r.kinds = .error e) : Misfit kept r e
  | clash {q : Rule K} {n : String} {now earlier : VarKind} (hq : q ∈ kept)
      (hearlier : (n, earlier) ∈ q.clauses.flatMap Clause.uses)
      (hnow : (n, now) ∈ r.clauses.flatMap Clause.uses) (hne : earlier ≠ now) :
      Misfit kept r (.definition ⟨.text r.name, none⟩ (.kindClash .earlierRules n now earlier))

theorem Rule.Misfit.isDefinition (h : r.Misfit kept e) : e.IsDefinition := by
  cases h with
  | duplicate => trivial
  | undefined he => exact r.failsOnly_kinds e he
  | clash => trivial

/-- What is kept when one rule after the other is offered to those kept already, and the errors of
the rules that are not. -/
inductive Sifts : List (Rule K) → List (Rule K) → List (Rule K) → List (Error K) → Prop
  | nil {kept : List (Rule K)} : Sifts kept [] kept []
  | keep {kept rules final : List (Rule K)} {r : Rule K} {errors : List (Error K)}
      (hr : r.Joins kept) (hrest : Sifts (kept ++ [r]) rules final errors) :
      Sifts kept (r :: rules) final errors
  | skip {kept rules final : List (Rule K)} {r : Rule K} {e : Error K} {errors : List (Error K)}
      (hr : ¬ r.Joins kept) (he : r.Misfit kept e) (hrest : Sifts kept rules final errors) :
      Sifts kept (r :: rules) final (e :: errors)

theorem Sifts.isDefinition {errors : List (Error K)} (h : Sifts kept rules final errors) :
    ∀ e ∈ errors, e.IsDefinition := by
  induction h with
  | nil => exact List.forall_mem_nil _
  | keep _ _ ih => exact ih
  | skip _ he _ ih => exact List.forall_mem_cons.mpr ⟨he.isDefinition, ih⟩

/-- A rule has kinds when its clauses constrain variables and use them so. -/
theorem Rule.exists_within_hasKinds_iff {kinds : String → VarKind} :
    (∃ d, r.dnf = .ok d ∧ d.Within (Clause.HasKinds kinds)) ↔
      (∃ d, r.dnf = .ok d ∧ d.Within Clause.IsProper) ∧
        Agrees kinds (r.clauses.flatMap Clause.uses) := by
  constructor
  · rintro ⟨d, hd, hwithin⟩
    refine ⟨⟨d, hd, fun term hterm c hc => (hwithin term hterm c hc).1⟩, ?_⟩
    rw [clauses_eq hd]
    exact agrees_flatMap_uses.mpr fun c hc => (Dnf.within_iff_flatten.mp hwithin c hc).2
  · rintro ⟨⟨d, hd, hproper⟩, hagrees⟩
    rw [clauses_eq hd] at hagrees
    refine ⟨d, hd, Dnf.within_iff_flatten.mpr fun c hc => ?_⟩
    exact ⟨Dnf.within_iff_flatten.mp hproper c hc, agrees_flatMap_uses.mp hagrees c hc⟩

/-- Rules that agree go on agreeing when one joins them. -/
theorem Rule.Joins.kindConsistent (h : r.Joins kept) (hkept : KindConsistent kept) :
    KindConsistent (kept ++ [r]) := by
  classical
  obtain ⟨earlier, hearlier⟩ := hkept
  obtain ⟨own, hown⟩ := h.normal
  -- a variable keeps the kind that the earlier rules use it with
  let known n := ∃ q ∈ kept, ∃ kind, (n, kind) ∈ q.clauses.flatMap Clause.uses
  refine ⟨fun n => if known n then earlier n else own n, List.forall_mem_append.mpr
    ⟨fun q hq => ?_, List.forall_mem_singleton.mpr ?_⟩⟩
  · obtain ⟨hnormal, hagrees⟩ := Rule.exists_within_hasKinds_iff.mp (hearlier q hq)
    refine Rule.exists_within_hasKinds_iff.mpr ⟨hnormal, fun u hu => ?_⟩
    have hknown : known u.1 := ⟨q, hq, u.2, hu⟩
    exact (if_pos hknown).trans (hagrees u hu)
  · obtain ⟨hnormal, hagrees⟩ :=
      Rule.exists_within_hasKinds_iff.mp (hown r (List.mem_singleton_self r))
    refine Rule.exists_within_hasKinds_iff.mpr ⟨hnormal, fun u hu => ?_⟩
    by_cases hknown : known u.1
    · obtain ⟨q, hq, kind, hkind⟩ := id hknown
      obtain rfl : kind = u.2 := h.agrees q hq u.1 kind u.2 hkind hu
      have hq' := (Rule.exists_within_hasKinds_iff.mp (hearlier q hq)).2
      exact (if_pos hknown).trans (hq' _ hkind)
    · exact (if_neg hknown).trans (hagrees u hu)

/-! ### Adding a rule -/

/-- Tables that cannot be merged have a name with two kinds. -/
theorem exists_clash_of_mergeKinds {clash : Clash} {rule : Datum K}
    {table uses entries : List (String × VarKind)} (h : Tabulates table uses)
    (hmerge : mergeKinds clash rule table entries = .error e) :
    ∃ n now earlier, e = .definition ⟨rule, none⟩ (.kindClash clash n now earlier) ∧
      (n, now) ∈ entries ∧ (n, earlier) ∈ uses ++ entries ∧ earlier ≠ now := by
  induction entries generalizing table uses with
  | nil => cases hmerge
  | cons entry entries ih =>
    rw [mergeKinds] at hmerge
    split at hmerge
    · next hnone =>
      obtain ⟨n, now, earlier, he, hnow, hearlier, hne⟩ := ih (h.enter hnone) hmerge
      rw [← List.append_cons] at hearlier
      exact ⟨n, now, earlier, he, List.mem_cons_of_mem _ hnow, hearlier, hne⟩
    · next seen hsome =>
      split at hmerge
      · next hsame =>
        obtain ⟨n, now, earlier, he, hnow, hearlier, hne⟩ := ih (h.skip (hsame ▸ hsome)) hmerge
        rw [← List.append_cons] at hearlier
        exact ⟨n, now, earlier, he, List.mem_cons_of_mem _ hnow, hearlier, hne⟩
      · next hdiffer =>
        obtain rfl := Except.error.inj hmerge
        exact ⟨entry.1, entry.2, seen, rfl, List.mem_cons_self,
          List.mem_append_left _ (h.get?_eq_some.mp hsome), hdiffer⟩

namespace RuleSet

variable {c next : Collected K}

/-- A rule is added exactly when it joins the rules that were added before. -/
theorem Collected.IsConsistent.exists_add_iff (h : c.IsConsistent) :
    (∃ next, c.add r = .ok next) ↔ r.Joins c.rules := by
  constructor
  · rintro ⟨next, hadd⟩
    obtain ⟨hrules, hname⟩ := Collected.rules_of_add hadd
    obtain ⟨kinds, hkinds⟩ := (h.add hadd).kindConsistent
    rw [hrules] at hkinds
    obtain ⟨hold, hnew⟩ := List.forall_mem_append.mp hkinds
    refine ⟨fun q hq hsame => hname (hsame ▸ List.mem_map_of_mem hq), ⟨kinds, hnew⟩,
      fun q hq n kind kind' hkind hkind' => ?_⟩
    have hnew' := hnew r (List.mem_singleton_self r)
    exact ((Rule.exists_within_hasKinds_iff.mp (hold q hq)).2 _ hkind).symm.trans
      ((Rule.exists_within_hasKinds_iff.mp hnew').2 _ hkind')
  · intro hr
    obtain ⟨kinds, hkinds⟩ := hr.kindConsistent h.kindConsistent
    have hname : r.name ∉ c.rules.map (·.name) := fun hmem => by
      obtain ⟨q, hq, hsame⟩ := List.mem_map.mp hmem
      exact hr.named q hq hsame
    obtain ⟨next, hadd, -⟩ := h.exists_add hname hkinds
    exact ⟨next, hadd⟩

/-- A rule that is not added does not fit. -/
theorem Collected.IsConsistent.misfit_of_add (h : c.IsConsistent) (hadd : c.add r = .error e) :
    r.Misfit c.rules e := by
  rw [Collected.add] at hadd
  split at hadd
  · next hany =>
    obtain rfl := Except.error.inj hadd
    obtain ⟨q, hq, hsame⟩ := List.any_eq_true.mp hany
    exact .duplicate hq (eq_of_beq hsame)
  · cases hkinds : r.kinds with
    | error e' =>
      rw [hkinds] at hadd
      obtain rfl := Except.error.inj hadd
      exact .undefined hkinds
    | ok entries =>
      obtain ⟨d, hd, hentries⟩ := bind_eq_ok.mp hkinds
      have htab := (Dnf.tabulates_kinds hentries).1
      rw [← Rule.clauses_eq hd] at htab
      cases hmerge : mergeKinds (K := K) .earlierRules (.text r.name) c.kinds entries with
      | ok merged =>
        rw [hkinds, ok_bind, hmerge] at hadd
        cases hadd
      | error e' =>
        rw [hkinds, ok_bind, hmerge] at hadd
        obtain rfl := Except.error.inj hadd
        obtain ⟨n, now, earlier, rfl, hnow, hearlier, hne⟩ :=
          exists_clash_of_mergeKinds h.tabulates hmerge
        -- the rule itself uses the variable with one kind, so the other one is from before
        have hbefore : (n, earlier) ∉ entries := fun hmem => by
          have hmem := (htab.mem_iff _).mp hmem
          exact hne (htab.kind_unique hmem ((htab.mem_iff _).mp hnow))
        obtain ⟨clause, hclause, huse⟩ :=
          List.mem_flatMap.mp ((List.mem_append.mp hearlier).resolve_right hbefore)
        obtain ⟨q, hq, hclause⟩ := List.mem_flatMap.mp hclause
        exact .clash hq (List.mem_flatMap.mpr ⟨clause, hclause, huse⟩)
          ((htab.mem_iff _).mp hnow) hne

/-! ### Collecting rules -/

/-- Every rule is kept or skipped, and a strict run ends with the first that would be skipped. -/
theorem Collected.IsConsistent.exists_sifts (h : c.IsConsistent) (rules : List (Rule K)) :
    ∃ next errors, Sifts c.rules rules next.rules errors ∧
      Collected.run false c rules = ⟨.ok next, errors.map .skippedRule⟩ ∧
      Collected.run true c rules = match errors with
        | [] => ⟨.ok next, []⟩
        | e :: _ => ⟨.error e, []⟩ := by
  induction rules generalizing c with
  | nil => exact ⟨c, [], .nil, rfl, rfl⟩
  | cons r rules ih =>
    cases hadd : c.add r with
    | ok c' =>
      have hr : r.Joins c.rules := h.exists_add_iff.mp ⟨c', hadd⟩
      obtain ⟨next, errors, hsifts, hlenient, hstrict⟩ := ih (h.add hadd)
      rw [(rules_of_add hadd).1] at hsifts
      refine ⟨next, errors, .keep hr hsifts, ?_, ?_⟩
      · rw [Collected.run, hadd]
        exact hlenient
      · rw [Collected.run, hadd]
        exact hstrict
    | error e =>
      have hr : ¬ r.Joins c.rules := fun hr => by
        obtain ⟨c', hadd'⟩ := h.exists_add_iff.mpr hr
        cases hadd.symm.trans hadd'
      obtain ⟨next, errors, hsifts, hlenient, -⟩ := ih h
      refine ⟨next, e :: errors, .skip hr (h.misfit_of_add hadd) hsifts, ?_, ?_⟩
      · have hdefinition := c.failsOnly_add r e hadd
        cases e with
        | definition site f =>
          rw [Collected.run, hadd]
          change Reported.warn _ >>= (fun _ => Collected.run false c rules) = _
          rw [hlenient]
          rfl
        | _ => exact hdefinition.elim
      · rw [Collected.run, hadd]
        rfl

/-- **Rules are sifted.** Collecting rules leniently keeps, in order, exactly those that join the
rules kept before them, with one warning for each of the others. The rules that are kept have a
table of kinds, and on their own they are all collected without a warning. A strict run gives the
same set when there is nothing to warn about, and otherwise the error of the first warning. -/
theorem collect_sifts (rules : List (Rule K)) :
    ∃ (s : RuleSet K) (errors : List (Error K)), Sifts [] rules s.rules errors ∧
      (∀ e ∈ errors, e.IsDefinition) ∧
      collect rules false = ⟨.ok s, errors.map .skippedRule⟩ ∧
      (∃ table, s.kinds = .ok table) ∧
      collect s.rules false = ⟨.ok s, []⟩ ∧
      collect rules true = match errors with
        | [] => ⟨.ok s, []⟩
        | e :: _ => ⟨.error e, []⟩ := by
  obtain ⟨next, errors, hsifts, hlenient, hstrict⟩ :=
    Collected.isConsistent_nil.exists_sifts rules
  have hconsistent : next.IsConsistent :=
    Collected.isConsistent_nil.run (congrArg Reported.outcome hlenient)
  have hset : ofList next.rules = .ok ⟨next.rules, hconsistent.nodup⟩ := dif_pos hconsistent.nodup
  refine ⟨⟨next.rules, hconsistent.nodup⟩, errors, hsifts, hsifts.isDefinition, ?_, ?_, ?_, ?_⟩
  · rw [collect, hlenient, ← hset]
    exact congrArg (Reported.mk _) (List.append_nil _)
  · obtain ⟨table, htable, -⟩ := exists_kinds (s := ⟨next.rules, hconsistent.nodup⟩)
      hconsistent.kindConsistent
    exact ⟨table, htable⟩
  · exact collect_eq hconsistent.nodup hconsistent.kindConsistent false
  · rw [collect, hstrict]
    cases errors with
    | nil => exact congrArg Reported.lift hset
    | cons e errors => rfl

end RuleSet

end RuleAudit
