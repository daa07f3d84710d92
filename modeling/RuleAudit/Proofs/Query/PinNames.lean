import RuleAudit.Proofs.Query.Hinted
import RuleAudit.Proofs.Query.Rounds
import RuleAudit.Proofs.Rule.Bound

/-!
# Rules that are named like pins

The name of a rule says nothing about its normal form, so a rule that is no pin may have the name of
one. Binding variables goes by the names: a rule is kept, with the values plugged in, exactly when
it is not named like one of the new pins. Plugging fixed variables in goes by the normal forms, so
there a rule like that stays, and the pin that is missing has the same name. Then the outcome is an
error, and this is the only way in which a set fails to be simplified (`Oracle.pins_by_name`).
-/

namespace RuleAudit

open Outcome RuleSet

/-- A rule with the values plugged in is in the result when it is not named like one of the pins,
and only then. -/
theorem RuleSet.mem_substitute_iff {s t : RuleSet Rat} {bindings : Assignment Rat}
    (h : s.substitute bindings true = .ok t) {r : Rule Rat} (hr : r ∈ s.rules) :
    ∃ r', r.substitute bindings 0 = .ok r' ∧ (r' ∈ t.rules ↔ r.name ∉ pinNames bindings) := by
  obtain ⟨known, rules, pins, hknown, hrules, hpins, ht⟩ := substitute_eq_ok_iff.mp h
  obtain ⟨L, hfits, -⟩ := (kindConsistent_of_kinds hknown).exists_lexicon
  obtain ⟨r', hsub, hbound⟩ := (hfits r hr).exists_isBound
    ((isNumericOn_of_pins hknown hpins).mono fun u hu => mem_usesIn.mpr ⟨r, hr, hu⟩)
  refine ⟨r', hsub, fun hmem hname => ?_, fun hname => ?_⟩
  · rw [ht] at hmem
    rcases List.mem_append.mp hmem with hmem | hmem
    · rw [← rules_without_pinNames hknown hrules hpins ht, mem_without, hbound.name] at hmem
      exact hmem.2 hname
    · -- a pin is about a bound variable, and none of them is left in the rule
      obtain ⟨b, hb, hpin⟩ := exists_of_mem_mapM hpins hmem
      obtain ⟨n, value, hn, -, -, hpin⟩ := exists_isPin hpin
      have hnone := (hbound.uses (n.1, value.kind) (hpin.uses ▸ List.mem_singleton_self _)).2
      rw [hn] at hnone
      exact Assoc.get?_eq_none.mp hnone (List.mem_map_of_mem hb)
  · obtain ⟨r'', hmem, hsub', -⟩ := exists_isBound hknown hrules hpins hr hname
    obtain rfl := Except.ok.inj (hsub.symm.trans hsub')
    exact ht ▸ List.mem_append_left _ hmem

/-- Plugging fixed variables in fails only for a rule that is named like the pin of a fixed variable
and does not pin it. -/
theorem Oracle.simplifyFixed_ok_or_clash {o : Oracle Rat} {s : RuleSet Rat}
    (hrules : KindConsistent s.rules) (hsolver : o.solver.Exact o.settings) :
    ∃ fixed, (o.fixed s).outcome = .ok fixed ∧ ((∃ t, (o.simplifyFixed s).outcome = .ok t) ∨
      ∃ p ∈ fixed, ∃ r ∈ s.rules, r.name = pinName p.1 ∧ r.pins p.1 = .ok false ∧
        (o.simplifyFixed s).outcome =
          .error (.definition ⟨.text (pinName p.1), none⟩ .duplicateRule)) := by
  obtain ⟨L, hfits, -⟩ := hrules.exists_lexicon
  obtain ⟨fixed, hfixed, hnodup, hsuits, -⟩ := exists_fixed_suits hsolver hfits
  refine ⟨fixed, hfixed, ?_⟩
  rcases exists_simplifyFixed hfits hfixed fun p hp => (hsuits p hp).2 with
    ⟨-, hsame⟩ | ⟨-, rules', hreplaces, hofList⟩
  · exact .inl ⟨s, hsame⟩
  rw [hofList]
  refine (hreplaces.ofList_cases hfits s.distinct
    (hnodup.sublist (List.filter_sublist.map _))).imp_right ?_
  rintro ⟨p, hp, r, hr, hname, hpinned, herror⟩
  obtain ⟨d, hd, -⟩ := hfits r hr
  refine ⟨p, (mem_targetsIn.mp hp).1, r, hr, hname, ?_, herror⟩
  rw [Rule.pins_eq hd, hpinned]

/-- **When pins and rules get in each other's way.** Binding variables keeps a rule, with the values
plugged in, exactly when it is not named like one of the pins. Plugging fixed variables in with an
exact solver leads to a set, unless a rule that is named like the pin of a fixed variable does not
pin it; then the error is about this name. -/
theorem Oracle.pins_by_name (o : Oracle Rat) (s : RuleSet Rat) (hrules : KindConsistent s.rules)
    (hsolver : o.solver.Exact o.settings) :
    (∀ bindings t, s.substitute bindings true = .ok t → ∀ r ∈ s.rules,
      ∃ r', r.substitute bindings 0 = .ok r' ∧ (r' ∈ t.rules ↔ r.name ∉ pinNames bindings)) ∧
    ∃ fixed, (o.fixed s).outcome = .ok fixed ∧ ((∃ t, (o.simplifyFixed s).outcome = .ok t) ∨
      ∃ p ∈ fixed, ∃ r ∈ s.rules, r.name = pinName p.1 ∧ r.pins p.1 = .ok false ∧
        (o.simplifyFixed s).outcome =
          .error (.definition ⟨.text (pinName p.1), none⟩ .duplicateRule)) :=
  ⟨fun _ _ h _ hr => mem_substitute_iff h hr, simplifyFixed_ok_or_clash hrules hsolver⟩

/-- Two bounds that meet, none of which is named like a pin. -/
theorem Oracle.pins_by_name_bounds :
    let low : Rule Rat := ⟨"low", .atom (.linear (.canonical [(⟨"x", by decide⟩, 1)] .ge 1)), none,
      by decide, by simp, none⟩
    let high : Rule Rat := ⟨"high", .atom (.linear (.canonical [(⟨"x", by decide⟩, 1)] .le 1)),
      none, by decide, by simp, none⟩
    let s : RuleSet Rat := ⟨[low, high], by decide⟩
    let bindings : Assignment Rat := [("x", .int 1)]
    let solver := Solver.hinted [[("num[x]", 1)]]
    KindConsistent s.rules ∧ ∃ settings t u, Settings.default = .ok settings ∧
      solver.Exact settings ∧ s.substitute bindings true = .ok t ∧
      (∀ r ∈ s.rules, ∃ r' ∈ t.rules, r.substitute bindings 0 = .ok r') ∧
      (Oracle.simplifyFixed ⟨solver, settings⟩ s).outcome = .ok u := by
  intro low high s bindings solver
  have hkinds : KindConsistent s.rules := by decide +kernel
  have hsettings : (Settings.default (K := Rat)).toOption.isSome = true := by decide +kernel
  have hplugged : (s.substitute bindings true).toOption.isSome = true := by decide +kernel
  obtain ⟨settings, hsettings⟩ := Option.isSome_iff_exists.mp hsettings
  obtain ⟨t, ht⟩ := Option.isSome_iff_exists.mp hplugged
  have ht := eq_ok_of_toOption ht
  have hsolver : solver.Exact settings := Solver.hinted_exact _ settings
  obtain ⟨hkept, fixed, -, hcases⟩ := Oracle.pins_by_name ⟨solver, settings⟩ s hkinds hsolver
  have hname : ∀ r ∈ s.rules, ∀ n, r.name ≠ pinName n := fun r hr n hn => by
    have hprefix := prefix_of_eq_pinName hn
    rcases List.mem_pair.mp hr with rfl | rfl <;> exact absurd hprefix (by decide)
  have hpinNames : ∀ r ∈ s.rules, r.name ∉ pinNames bindings := fun r hr hmem => by
    obtain ⟨b, -, hb⟩ := List.mem_map.mp hmem
    exact hname r hr b.1 hb.symm
  obtain ⟨u, hu⟩ : ∃ u, (Oracle.simplifyFixed ⟨solver, settings⟩ s).outcome = .ok u := by
    refine hcases.resolve_right ?_
    rintro ⟨p, -, r, hr, hn, -⟩
    exact hname r hr p.1 hn
  refine ⟨hkinds, settings, t, u, eq_ok_of_toOption hsettings, hsolver, ht, fun r hr => ?_, hu⟩
  obtain ⟨r', hsub, hmem⟩ := hkept bindings t ht r hr
  exact ⟨r', hmem.mpr (hpinNames r hr), hsub⟩

/-- A bound of one variable that is named like the pin of another one: binding the other variable
drops it, and where that variable is fixed nothing can be plugged in. -/
theorem Oracle.pins_clash_with_rule :
    let low : Rule Rat := ⟨"low", .atom (.linear (.canonical [(⟨"x", by decide⟩, 1)] .ge 1)), none,
      by decide, by simp, none⟩
    let high : Rule Rat := ⟨"high", .atom (.linear (.canonical [(⟨"x", by decide⟩, 1)] .le 1)),
      none, by decide, by simp, none⟩
    let named : Rule Rat := ⟨".const_x", .atom (.linear (.canonical [(⟨"y", by decide⟩, 1)] .ge 5)),
      none, by decide, by simp, none⟩
    let lone : RuleSet Rat := ⟨[named], by decide⟩
    let s : RuleSet Rat := ⟨[low, high, named], by decide⟩
    let bindings : Assignment Rat := [("x", .int 1)]
    let solver := Solver.hinted [[("num[x]", 1), ("num[y]", 5)], [("num[x]", 1), ("num[y]", 7)]]
    named.pins "x" = .ok false ∧ named.substitute bindings 0 = .ok named ∧
      (∃ t, lone.substitute bindings true = .ok t ∧ ∀ r ∈ t.rules, r.pins "x" = .ok true) ∧
      KindConsistent s.rules ∧ ∃ settings e, Settings.default = .ok settings ∧
        solver.Exact settings ∧ Oracle.isFeasible ⟨solver, settings⟩ s = .ok true ∧
        (Oracle.simplifyFixed ⟨solver, settings⟩ s).outcome = .error e ∧ e.IsClash := by
  intro low high named lone s bindings solver
  have hpins : (named.pins "x").toOption = some false := by decide +kernel
  have hused : named.used = ["y"] := by decide +kernel
  have hdropped : (lone.substitute bindings true).toOption.any (fun t =>
      t.rules.all fun r => (r.pins "x").toOption == some true) = true := by
    decide +kernel
  have hkinds : KindConsistent s.rules := by decide +kernel
  have hfails : (Settings.default (K := Rat)).toOption.any (fun settings =>
      decide ((Oracle.isFeasible ⟨solver, settings⟩ s).toOption = some true) &&
        (Oracle.simplifyFixed ⟨solver, settings⟩ s).outcome.toOption.isNone) = true := by
    decide +kernel
  obtain ⟨t, ht, hall⟩ := exists_of_any_toOption hdropped
  obtain ⟨settings, hsettings, hfails⟩ := exists_of_any_toOption hfails
  rw [Bool.and_eq_true, decide_eq_true_eq, Option.isNone_iff_eq_none] at hfails
  have hsolver : solver.Exact settings := Solver.hinted_exact _ settings
  obtain ⟨L, hfits, -⟩ := hkinds.exists_lexicon
  have hsame : named.substitute bindings 0 = .ok named :=
    (hfits named (by simp [s])).substitute_eq_self fun n hn => by
      obtain rfl := List.mem_singleton.mp (hused ▸ hn)
      rfl
  refine ⟨eq_ok_of_toOption hpins, hsame, ⟨t, ht, fun r hr => ?_⟩, hkinds, settings, ?_⟩
  · exact eq_ok_of_toOption (eq_of_beq (List.all_eq_true.mp hall r hr))
  · rcases simplifyFixed_cases (o := ⟨solver, settings⟩) hsolver hfits with
      ⟨e, he, hclash⟩ | ⟨u, hu, -⟩
    · exact ⟨e, hsettings, hsolver, eq_ok_of_toOption hfails.1, he, hclash⟩
    · rw [hu] at hfails
      exact absurd hfails.2 (Option.some_ne_none u)

end RuleAudit
