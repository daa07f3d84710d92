import RuleAudit.Proofs.Query.Hinted
import RuleAudit.Proofs.Rule.Bound

/-!
# Plugging in and pinning

Values can be given to the variables of a set in two ways: they are plugged into its rules, or pins
for them are added. A pin is tight where its variable has the value, and there a rule with the
values plugged in is tight when the rule is. So plugging in keeps a set feasible that is so with the
pins, and when no clause is strict the two sets are feasible together
(`Oracle.exists_isFeasible_pinned`). A strict clause that is decided while values are plugged in
needs no margin, so it may hold where the solver rejects it (`Oracle.isFeasible_pinned_strict`).
-/

namespace RuleAudit

open Outcome

namespace RuleSet

variable {s t : RuleSet Rat} {bindings : Assignment Rat} {known : List (String × VarKind)}
  {rules pins : List (Rule Rat)} {settings : Settings Rat} {v : Valuation}

/-- The pins for some bindings, each of the kind that the variable has in the set. -/
def pinsFor (s : RuleSet Rat) (bindings : Assignment Rat) : Except (Error Rat) (List (Rule Rat)) :=
  s.kinds >>= fun known => bindings.mapM (pinOf known)

/-- The set with pins for some bindings at the end. -/
def pinned (s : RuleSet Rat) (bindings : Assignment Rat) : Except (Error Rat) (RuleSet Rat) :=
  s.pinsFor bindings >>= s.extend

section Plugged

variable (hknown : s.kinds = .ok known) (hpins : bindings.mapM (pinOf known) = .ok pins)

include hknown hpins

/-- With pins for all values, the names stay different when no rule is named like a pin. -/
theorem exists_pinned (hfree : ∀ r ∈ s.rules, r.name ∉ pinNames bindings)
    (ht : t.rules = rules ++ pins) :
    ∃ u, s.pinned bindings = .ok u ∧ u.rules = s.rules ++ pins := by
  have hnames : ((s.rules ++ pins).map (·.name)).Nodup := by
    have hdistinct := t.distinct
    rw [ht, List.map_append] at hdistinct
    rw [List.map_append]
    refine List.nodup_append.mpr ⟨s.distinct, (List.nodup_append.mp hdistinct).2.1, ?_⟩
    rintro name hname _ hname' rfl
    obtain ⟨r, hr, rfl⟩ := List.mem_map.mp hname
    exact hfree r hr (names_of_pins hpins ▸ hname')
  refine ⟨⟨s.rules ++ pins, hnames⟩, ?_, rfl⟩
  rw [pinned, pinsFor, hknown, ok_bind, hpins, ok_bind, extend, ofList, dif_pos hnames]

/-- Where the pins are tight, the variables have the right values for plugging in. -/
theorem matches_of_tightAt (htight : ∀ p ∈ pins, p.TightAt settings v) :
    v.Matches bindings (usesIn s.rules) := by
  refine matches_of_hasValue hknown fun b hb => ?_
  obtain ⟨p, hp, hpin⟩ := exists_mem_of_mapM hpins hb
  exact (tightAt_iff_hasValue hpin).mp (htight p hp)

variable (hrules : (s.without (pinNames bindings)).rules.mapM (·.substitute bindings 0) = .ok rules)

include hrules

/-- What is tight for all rules and pins is so for the rules with the values plugged in. -/
theorem admissible_of_pinned (hv : Admissible settings (s.rules ++ pins) v) :
    Admissible settings (rules ++ pins) v := by
  obtain ⟨hold, htight⟩ := admissible_append.mp hv
  have hmatches := matches_of_tightAt hknown hpins htight
  refine admissible_append.mpr ⟨⟨hold.inBox, fun r' hr' => ?_⟩, htight⟩
  obtain ⟨r, hr, -, hbound⟩ := exists_isBound_of_mem hknown hrules hpins hr'
  have hr_matches := hmatches.mono fun u hu => mem_usesIn.mpr ⟨r, hr, hu⟩
  exact hbound.tight settings v hr_matches (hold.tight r hr)

/-- Without strict clauses the converse holds: rules with the values plugged in are true where
they are tight, and so are the rules themselves. -/
theorem admissible_of_plugged (hfree : ∀ r ∈ s.rules, r.name ∉ pinNames bindings)
    (hstrict : ∀ r ∈ s.rules, ∀ c ∈ r.clauses, c.isStrict = false)
    (hv : Admissible settings (rules ++ pins) v) : Admissible settings (s.rules ++ pins) v := by
  obtain ⟨hplugged, htight⟩ := admissible_append.mp hv
  have hmatches := matches_of_tightAt hknown hpins htight
  refine admissible_append.mpr ⟨⟨hplugged.inBox, fun r hr => ?_⟩, htight⟩
  obtain ⟨r', hr', -, hbound⟩ := exists_isBound hknown hrules hpins hr (hfree r hr)
  obtain ⟨d, hd, -⟩ := (kindConsistent_of_kinds hknown).exists_dnf hr
  have hr_matches := hmatches.mono fun u hu => mem_usesIn.mpr ⟨r, hr, hu⟩
  refine Rule.tightAt_of_eval hd (hstrict r hr) ?_
  rw [← hbound.eval v hr_matches]
  exact (hplugged.tight r' hr').eval

end Plugged

end RuleSet

open RuleSet

/-- **Plugging in and pinning agree.** For an exact solver, a set none of whose rules is named like
a pin, and values that can be bound, there are verdicts on the set with pins for the values and on
the set with the values plugged in. If the first is feasible, so is the second, and the verdicts are
equal when no clause is strict. Only the decision variables of the first need different names. -/
theorem Oracle.exists_isFeasible_pinned (o : Oracle Rat) (s t : RuleSet Rat)
    (bindings : Assignment Rat) (hsolver : o.solver.Exact o.settings)
    (hfree : ∀ r ∈ s.rules, r.name ∉ pinNames bindings)
    (ht : s.substitute bindings true = .ok t)
    (hnames : ∀ u p, s.pinned bindings = .ok u → Program.ofRules u.rules o.settings = .ok p →
      (p.vars.map (·.name)).Nodup) :
    ∃ u pinned plugged, s.pinned bindings = .ok u ∧ o.isFeasible u = .ok pinned ∧
      o.isFeasible t = .ok plugged ∧ (pinned = true → plugged = true) ∧
      ((∀ r ∈ s.rules, ∀ c ∈ r.clauses, c.isStrict = false) → pinned = plugged) := by
  obtain ⟨known, rules, pins, hknown, hrules, hpins, ht⟩ := substitute_eq_ok_iff.mp ht
  obtain ⟨u, hu, hurules⟩ := exists_pinned hknown hpins hfree ht
  -- all rules are about the same words, so one lexicon serves both sets
  have hconsistent : KindConsistent u.rules := by
    obtain ⟨L, hfits, hkinds, hmentions⟩ :=
      exists_lexicon_of_kinds hknown (nodup_of_pins hpins ht)
    refine kindConsistent_of_fits (L := L) ?_
    rw [hurules]
    refine List.forall_mem_append.mpr ⟨hfits, fun p hp => ?_⟩
    obtain ⟨b, hb, hpin⟩ := exists_of_mem_mapM hpins hp
    exact fits_of_pinOf (hkinds b hb) hmentions hpin
  obtain ⟨L, hL, hfits, -⟩ := hconsistent.exists_apart (hnames u · hu)
  have hfits' : ∀ r ∈ t.rules, r.Fits L := by
    rw [hurules] at hfits
    obtain ⟨hold, hnew⟩ := List.forall_mem_append.mp hfits
    rw [ht]
    refine List.forall_mem_append.mpr ⟨fun r' hr' => ?_, hnew⟩
    obtain ⟨r, hr, -, hbound⟩ := exists_isBound_of_mem hknown hrules hpins hr'
    exact hbound.fits L (hold r hr)
  refine ⟨u, _, _, hu, isFeasible_eq hsolver hfits, isFeasible_eq hsolver hfits', ?_, ?_⟩
  · rw [verdict_iff hsolver hL hfits, verdict_iff hsolver hL hfits', hurules, ht]
    exact fun ⟨v, hv⟩ => ⟨v, admissible_of_pinned hknown hpins hrules hv⟩
  · intro hstrict
    rw [Bool.eq_iff_iff, verdict_iff hsolver hL hfits, verdict_iff hsolver hL hfits', hurules, ht]
    exact ⟨fun ⟨v, hv⟩ => ⟨v, admissible_of_pinned hknown hpins hrules hv⟩,
      fun ⟨v, hv⟩ => ⟨v, admissible_of_plugged hknown hpins hrules hfree hstrict hv⟩⟩

/-- A sum that is left with one variable, with a pin for the other one. -/
theorem Oracle.exists_isFeasible_pinned_sum :
    let x : VarName := ⟨"x", by decide⟩
    let y : VarName := ⟨"y", by decide⟩
    let sum : Rule Rat := ⟨"sum", .atom (.linear (.canonical [(x, 1), (y, 1)] .ge 3)), none,
      by decide, by simp, none⟩
    let s : RuleSet Rat := ⟨[sum], by decide⟩
    let bindings : Assignment Rat := [("x", .int 1)]
    let solver := Solver.hinted [[("num[x]", 1), ("num[y]", 2)]]
    ∃ settings t u, Settings.default = .ok settings ∧ s.substitute bindings true = .ok t ∧
      s.pinned bindings = .ok u ∧ u.names = ["sum", ".const_x"] ∧
      Oracle.isFeasible ⟨solver, settings⟩ u = .ok true ∧
      Oracle.isFeasible ⟨solver, settings⟩ t = .ok true := by
  intro x y sum s bindings solver
  have hsome : (Settings.default (K := Rat)).toOption.any (fun settings =>
      (s.substitute bindings true).toOption.isSome && (s.pinned bindings).toOption.any fun u =>
        decide (u.names = ["sum", ".const_x"]) &&
        (Program.ofRules u.rules settings).toOption.any (fun p =>
          decide (p.vars.map (·.name)).Nodup) &&
        decide ((Oracle.isFeasible ⟨solver, settings⟩ u).toOption = some true)) = true := by
    decide +kernel
  obtain ⟨settings, hsettings, hall⟩ := exists_of_any_toOption hsome
  rw [Bool.and_eq_true] at hall
  obtain ⟨hplugged, hall⟩ := hall
  obtain ⟨u, hu, hall⟩ := exists_of_any_toOption hall
  rw [Bool.and_eq_true, Bool.and_eq_true, decide_eq_true_eq, decide_eq_true_eq] at hall
  obtain ⟨⟨hunames, hprogram⟩, hfeasible⟩ := hall
  obtain ⟨t, ht⟩ := Option.isSome_iff_exists.mp hplugged
  have ht := eq_ok_of_toOption ht
  obtain ⟨p, hp, hnodup⟩ := exists_of_any_toOption hprogram
  obtain ⟨u', pinned, plugged, hu', hpinned, hplugged, himp, -⟩ :=
    Oracle.exists_isFeasible_pinned ⟨solver, settings⟩ s t bindings (Solver.hinted_exact _ settings)
      (fun r hr hname => by
        obtain rfl := List.mem_singleton.mp hr
        exact absurd hname (by decide))
      ht fun u' p' hu' hp' => by
        obtain rfl := Except.ok.inj (hu.symm.trans hu')
        obtain rfl := Except.ok.inj (hp.symm.trans hp')
        exact of_decide_eq_true hnodup
  obtain rfl := Except.ok.inj (hu.symm.trans hu')
  have hfeasible := eq_ok_of_toOption hfeasible
  have htrue : pinned = true := Except.ok.inj (hpinned.symm.trans hfeasible)
  exact ⟨settings, t, u, hsettings, ht, hu, hunames, hfeasible, himp htrue ▸ hplugged⟩

/-- A variable that has to be positive, bound to less than the margin: the pin is refused, and the
value that is plugged in is accepted. -/
theorem Oracle.isFeasible_pinned_strict :
    let x : VarName := ⟨"x", by decide⟩
    let positive : Rule Rat := ⟨"positive", .atom (.linear (.canonical [(x, 1)] .gt 0)), none,
      by decide, by simp, none⟩
    let s : RuleSet Rat := ⟨[positive], by decide⟩
    let bindings : Assignment Rat := [("x", .real (1 / 10 ^ 9))]
    let solver := Solver.hinted [[("num[x]", 1 / 10 ^ 9)]]
    ∃ settings t u, Settings.default = .ok settings ∧ solver.Exact settings ∧
      s.substitute bindings true = .ok t ∧ s.pinned bindings = .ok u ∧
      Oracle.isFeasible ⟨solver, settings⟩ u = .ok false ∧
      Oracle.isFeasible ⟨solver, settings⟩ t = .ok true := by
  intro x positive s bindings solver
  have hsome : (Settings.default (K := Rat)).toOption.any (fun settings =>
      (s.substitute bindings true).toOption.any fun t => (s.pinned bindings).toOption.any fun u =>
        decide ((Oracle.isFeasible ⟨solver, settings⟩ u).toOption = some false) &&
        decide ((Oracle.isFeasible ⟨solver, settings⟩ t).toOption = some true)) = true := by
    decide +kernel
  obtain ⟨settings, hsettings, hall⟩ := exists_of_any_toOption hsome
  obtain ⟨t, ht, hall⟩ := exists_of_any_toOption hall
  obtain ⟨u, hu, hall⟩ := exists_of_any_toOption hall
  rw [Bool.and_eq_true, decide_eq_true_eq, decide_eq_true_eq] at hall
  exact ⟨settings, t, u, hsettings, Solver.hinted_exact _ settings, ht, hu,
    eq_ok_of_toOption hall.1, eq_ok_of_toOption hall.2⟩

end RuleAudit
