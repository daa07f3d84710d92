import RuleAudit.Proofs.Query.Simplify

/-!
# Simplifying rules about labels

Rules about labels have no gaps and their values are not rounded, so no step of a round changes
which valuations are admissible. Whether a variable has the same label in all of these does not
change either: after one round no rule is open in such a variable, and the set is settled. So a
second round finds nothing (`Oracle.exists_simplifyRound_of_isCategorical`), and the simplified
rules hold on the same assignments as the original ones (`Oracle.exists_simplify_of_isCategorical`).
-/

namespace RuleAudit

/-! ### Truth on assignments -/

section Truth

variable {L : Lexicon} {rules : List (Rule Rat)} {r : Rule Rat} {settings : Settings Rat}
  {a : Assignment Rat}

theorem Rule.IsCategorical.kind_eq (h : r.IsCategorical) {u : String × VarKind}
    (hu : u ∈ r.clauses.flatMap Clause.uses) : u.2 = .categorical := by
  obtain ⟨c, hc, hu⟩ := List.mem_flatMap.mp hu
  have hmembership := h c hc
  cases c with
  | linear c => cases hmembership
  | membership c => rw [List.mem_singleton.mp hu]
  | foreign d => cases hmembership

theorem kind_eq_of_isCategorical (h : ∀ r ∈ rules, r.IsCategorical) {u : String × VarKind}
    (hu : u ∈ usesIn rules) : u.2 = .categorical := by
  obtain ⟨r, hr, hu⟩ := mem_usesIn.mp hu
  exact (h r hr).kind_eq hu

/-- The labels of an assignment, with numbers that are in every box. -/
def Assignment.labelling (a : Assignment Rat) : Valuation :=
  ⟨fun _ => 0, a.valuation.label⟩

/-- A rule about labels holds on an assignment when it is tight at its labels. -/
theorem Rule.IsCategorical.holds_iff (h : r.IsCategorical) (hr : r.Fits L)
    (ha : a.Suits r.expr.uses) :
    r.expr.holds a 0 = .ok true ↔ r.TightAt settings a.labelling := by
  obtain ⟨d, hd, hwithin⟩ := hr
  have hproper : d.Within Clause.IsProper := fun term hterm c hc => (hwithin term hterm c hc).1.1
  -- the normal form only uses labels, so the numbers of the assignment do not matter
  have hlabel : ∀ u ∈ r.clauses.flatMap Clause.uses, u.2 = .categorical := fun u hu => h.kind_eq hu
  have hto : a.labelling.AgreesOn a.valuation (r.clauses.flatMap Clause.uses) :=
    fun u hu => by rw [hlabel u hu]; rfl
  have hfrom : a.valuation.AgreesOn a.labelling (r.clauses.flatMap Clause.uses) :=
    fun u hu => by rw [hlabel u hu]; rfl
  have htight : r.TightAt settings a.valuation ↔ r.expr.eval .exact a.valuation = true :=
    h.tightAt_iff_eval hd
  rw [Expr.holds_eq_eval (r.isProper hd hproper) ha]
  constructor
  · exact fun htrue => (htight.mpr (Except.ok.inj htrue)).agree hto
  · exact fun hlabels => congrArg Except.ok (htight.mp (hlabels.agree hfrom))

theorem holds_iff_admissible (settings : Settings Rat) (hfits : ∀ r ∈ rules, r.Fits L)
    (h : ∀ r ∈ rules, r.IsCategorical) (ha : a.Suits (usesOf rules)) :
    (∀ r ∈ rules, r.expr.holds a 0 = .ok true) ↔ Admissible settings rules a.labelling := by
  have hrule : ∀ r ∈ rules,
      (r.expr.holds a 0 = .ok true ↔ r.TightAt settings a.labelling) := fun r hr =>
    (h r hr).holds_iff (hfits r hr) fun u hu => ha u (List.mem_flatMap.mpr ⟨r, hr, hu⟩)
  constructor
  · refine fun hholds => ⟨fun n => ?_, fun r hr => (hrule r hr).mp (hholds r hr)⟩
    rw [Assignment.labelling, abs_zero]
    exact (settings.bound_pos n).le
  · exact fun hv r hr => (hrule r hr).mpr (hv.tight r hr)

/-- The expressions use all that the normal forms do. -/
theorem usesIn_subset_usesOf (hfits : ∀ r ∈ rules, r.Fits L) : usesIn rules ⊆ usesOf rules := by
  intro u hu
  obtain ⟨r, hr, hu⟩ := mem_usesIn.mp hu
  obtain ⟨d, hd, -⟩ := hfits r hr
  rw [Rule.clauses_eq hd] at hu
  exact List.mem_flatMap.mpr ⟨r, hr, Rule.uses_dnf_subset hd hu⟩

end Truth

/-! ### Steps that change nothing but the rules -/

/-- A set of rules about labels that uses no other variables than another set, and has the same
admissible valuations. -/
structure RuleSet.Restates (settings : Settings Rat) (L : Lexicon) (s t : RuleSet Rat) : Prop where
  fits : ∀ r ∈ t.rules, r.Fits L
  categorical : ∀ r ∈ t.rules, r.IsCategorical
  usesOf_subset : usesOf t.rules ⊆ usesOf s.rules
  admissible_iff : ∀ v, Admissible settings t.rules v ↔ Admissible settings s.rules v

namespace RuleSet.Restates

variable {settings : Settings Rat} {L : Lexicon} {s t u : RuleSet Rat}

theorem trans (h : Restates settings L s t) (h' : Restates settings L t u) :
    Restates settings L s u where
  fits := h'.fits
  categorical := h'.categorical
  usesOf_subset := List.Subset.trans h'.usesOf_subset h.usesOf_subset
  admissible_iff v := (h'.admissible_iff v).trans (h.admissible_iff v)

/-- The rules of both sets hold on the same assignments. -/
theorem holds_iff (h : Restates settings L s t) (hfits : ∀ r ∈ s.rules, r.Fits L)
    (hcategorical : ∀ r ∈ s.rules, r.IsCategorical) {a : Assignment Rat}
    (ha : a.Suits (usesOf s.rules)) :
    (∀ r ∈ t.rules, r.expr.holds a 0 = .ok true) ↔ ∀ r ∈ s.rules, r.expr.holds a 0 = .ok true := by
  rw [holds_iff_admissible settings hfits hcategorical ha,
    holds_iff_admissible settings h.fits h.categorical
      fun u hu => ha u (h.usesOf_subset hu)]
  exact h.admissible_iff _

end RuleSet.Restates

/-- A replacement uses no other variables. -/
theorem Replaces.usesOf_subset {rules rules' : List (Rule Rat)} {L : Lexicon}
    {targets : List (String × FixedValue Rat)} (h : Replaces targets rules rules')
    (hfits : ∀ r ∈ rules, r.Fits L) (huses : ∀ p ∈ targets, (p.1, p.2.kind) ∈ usesIn rules) :
    usesOf rules' ⊆ usesOf rules := by
  obtain ⟨kept, plug, keep, pin, ⟨rfl, hplugged, -⟩, hpin, rfl⟩ := h
  intro u hu
  obtain ⟨r', hr', hu⟩ := List.mem_flatMap.mp hu
  rcases List.mem_append.mp hr' with hr' | hr'
  · obtain ⟨r, hr, rfl⟩ := List.mem_map.mp hr'
    have hmem := (List.mem_filter.mp hr).1
    exact List.mem_flatMap.mpr ⟨r, hmem, (hplugged r hmem).exprUses hu⟩
  · obtain ⟨p, hp, rfl⟩ := List.mem_map.mp hr'
    have hmem := (List.mem_filter.mp hp).1
    obtain ⟨n, hn, hpinP⟩ := hpin p hmem
    rw [hpinP.exprUses, List.mem_singleton, hn] at hu
    exact usesIn_subset_usesOf hfits (hu ▸ huses p hmem)

/-! ### Variables with one label -/

/-- The variable has the same label in all admissible valuations. -/
def Determined (settings : Settings Rat) (rules : List (Rule Rat)) (n : String) : Prop :=
  ∃ l, ∀ v, Admissible settings rules v → v.label n = some l

namespace Oracle

variable {o : Oracle Rat} {L : Lexicon} {s : RuleSet Rat} {v : Valuation} {n : String}
  {fixed : List (String × FixedValue Rat)} (hsolver : o.solver.Exact o.settings) (hL : L.Apart)
  (h : ∀ r ∈ s.rules, r.Fits L) (hcategorical : ∀ r ∈ s.rules, r.IsCategorical)

include hsolver hL h hcategorical

/-- A fixed variable has its label wherever the rules hold. -/
theorem Fixes.isAt_of_isCategorical (hfixes : o.Fixes s v fixed) {p : String × FixedValue Rat}
    (hp : p ∈ fixed) : p.2.kind = .categorical ∧
      ∀ w, Admissible o.settings s.rules w → p.2.IsAt w p.1 := by
  obtain ⟨hsuits, huse⟩ := hfixes.suits h hp
  have hkind : p.2.kind = .categorical := kind_eq_of_isCategorical hcategorical huse
  obtain ⟨-, -, -, hfixed⟩ := (hfixes.mem_iff p.1 p.2).mp hp
  have hnotAway := (isFixed_iff hsolver h hL (ne_empty_of_mem_usesIn huse) hsuits).mp hfixed
  refine ⟨hkind, fun w hw => ?_⟩
  obtain ⟨n, value⟩ := p
  cases value with
  | number x => cases hkind
  | label l => exact not_not.mp (hnotAway w hw)

/-- The variables that are fixed are those with one label. -/
theorem Fixes.exists_mem_iff (hfixes : o.Fixes s v fixed) (hn : n ∈ openIn s.rules) :
    (∃ value, (n, value) ∈ fixed) ↔ Determined o.settings s.rules n := by
  constructor
  · rintro ⟨value, hmem⟩
    obtain ⟨hkind, hat⟩ := hfixes.isAt_of_isCategorical hsolver hL h hcategorical hmem
    cases value with
    | number x => cases hkind
    | label l => exact ⟨l, hat⟩
  · rintro ⟨l, hl⟩
    obtain ⟨kind, huse⟩ := exists_mem_usesIn hn
    obtain rfl : kind = .categorical := kind_eq_of_isCategorical hcategorical huse
    have hcandidate : (v.reading (n, .categorical)).candidate? = some (.label l) := by
      rw [Valuation.reading]
      dsimp only
      rw [hl v hfixes.admissible]
      rfl
    have hsuits : (FixedValue.label l).Suits L n :=
      FixedValue.suits_of_candidate? h hfixes.mentioned huse hcandidate
    refine ⟨.label l, (hfixes.mem_iff n _).mpr ⟨_, huse, hcandidate, ?_⟩⟩
    exact (isFixed_iff hsolver h hL (ne_empty_of_mem_usesIn huse) hsuits).mpr
      fun w hw haway => haway (hl w hw)

/-! ### One round -/

/-- Without open variables that have one label, no variable is plugged in. -/
theorem simplifyFixed_eq_self (hopen : ∀ n ∈ openIn s.rules, ¬ Determined o.settings s.rules n) :
    (o.simplifyFixed s).outcome = .ok s := by
  obtain ⟨fixed, hfixed, -, hsuits, hfixes⟩ := exists_fixed_suits hsolver h
  obtain ⟨-, hsame⟩ | ⟨hne, -⟩ := exists_simplifyFixed h hfixed fun p hp => (hsuits p hp).2
  · exact hsame
  · obtain ⟨p, hp⟩ := List.exists_mem_of_ne_nil _ hne
    obtain ⟨hmem, hn⟩ := mem_targetsIn.mp hp
    obtain ⟨v, hfixes⟩ := hfixes (List.ne_nil_of_mem hmem)
    exact absurd ((hfixes.exists_mem_iff hsolver hL h hcategorical hn).mp ⟨p.2, hmem⟩)
      (hopen p.1 hn)

/-- Plugging fixed variables in closes all variables with one label, and changes nothing else. -/
theorem exists_simplifyFixed_of_isCategorical (hfeasible : o.isFeasible s = .ok true)
    (hnamed : ∀ r ∈ s.rules, ∀ n, r.name = pinName n → r.isPinFor n = true) :
    ∃ t, (o.simplifyFixed s).outcome = .ok t ∧ RuleSet.Restates o.settings L s t ∧
      ∀ n ∈ openIn t.rules, ¬ Determined o.settings s.rules n := by
  obtain ⟨f, fixed, v, -, hfixed, hfixes, -⟩ := exists_fixes hsolver h hfeasible
  have hsat : Satisfiable o.settings s.rules := (isFeasible_iff hsolver hL h).mp hfeasible
  have huses : ∀ p ∈ fixed, (p.1, p.2.kind) ∈ usesIn s.rules := fun p hp => (hfixes.suits h hp).2
  have hat {p : String × FixedValue Rat} (hp : p ∈ fixed) :=
    hfixes.isAt_of_isCategorical hsolver hL h hcategorical hp
  have htarget {n : String} (hn : n ∈ openIn s.rules)
      (hdetermined : Determined o.settings s.rules n) :
      ∃ value, (n, value) ∈ targetsIn s.rules fixed :=
    ((hfixes.exists_mem_iff hsolver hL h hcategorical hn).mpr hdetermined).imp
      fun value hmem => mem_targetsIn.mpr ⟨hmem, hn⟩
  rcases exists_simplifyFixed h hfixed huses with ⟨hnone, hsame⟩ | ⟨-, rules', hreplaces, hofList⟩
  · refine ⟨s, hsame, ⟨h, hcategorical, List.Subset.refl _, fun _ => Iff.rfl⟩,
      fun n hn hdetermined => ?_⟩
    obtain ⟨value, hmem⟩ := htarget hn hdetermined
    rw [hnone] at hmem
    cases hmem
  · have hfrom : ∀ p ∈ targetsIn s.rules fixed, p ∈ fixed := fun p hp => (mem_targetsIn.mp hp).1
    have hsuits : ∀ p ∈ targetsIn s.rules fixed, p.2.Suits L p.1 := fun p hp =>
      (hfixes.suits h (hfrom p hp)).1
    have hnodup := hreplaces.nodup_names h hnamed s.distinct
      (hfixes.nodup.sublist (List.filter_sublist.map _))
    refine ⟨⟨rules', hnodup⟩, by rw [hofList, RuleSet.ofList, dif_pos hnodup],
      ⟨hreplaces.fits h hsuits, ?_, hreplaces.usesOf_subset h fun p hp => huses p (hfrom p hp), ?_⟩,
      fun n hn hdetermined => ?_⟩
    · exact hreplaces.isCategorical hcategorical fun p hp => (hat (hfrom p hp)).1
    · refine fun w => ⟨fun hw => ?_, fun hw => ?_⟩
      · exact hreplaces.admissible_of_isCategorical h hsuits hcategorical
          (fun x hx p hp => (hat (hfrom p hp)).2 x hx) hsat hw
      · exact hreplaces.admissible h hsuits (fun p hp => (hat (hfrom p hp)).2 w hw) hw
    · obtain ⟨hn, hfree⟩ := hreplaces.mem_openIn hn
      obtain ⟨value, hmem⟩ := htarget hn hdetermined
      exact hfree value hmem

/-- Dropping terms and rules changes nothing else. -/
theorem exists_cleanUp_of_isCategorical :
    ∃ t, (o.cleanUp s).outcome = .ok t ∧ RuleSet.Restates o.settings L s t ∧
      openIn t.rules ⊆ openIn s.rules ∧ Settled o.settings t.rules := by
  obtain ⟨t, ht, hcleansUp, hsettles⟩ := exists_cleanUp hsolver h
  obtain ⟨hsettled, -, hto, hfrom⟩ := hsettles hL
  refine ⟨t, ht, ⟨hcleansUp.fits h, fun r' hr' => ?_, fun u hu => ?_, fun v =>
    ⟨hfrom hcategorical v, hto v⟩⟩, hcleansUp.openIn_subset, hsettled⟩
  · obtain ⟨r, hr, htrimmed⟩ := hcleansUp.trimmed r' hr'
    exact htrimmed.isCategorical (hcategorical r hr)
  · obtain ⟨r', hr', hu⟩ := List.mem_flatMap.mp hu
    obtain ⟨r, hr, htrimmed⟩ := hcleansUp.trimmed r' hr'
    exact List.mem_flatMap.mpr ⟨r, hr, htrimmed.exprUses hu⟩

/-- Nothing is left to do for a settled set without open variables that have one label. -/
theorem simplifyRound_eq_self (hopen : ∀ n ∈ openIn s.rules, ¬ Determined o.settings s.rules n)
    (hsettled : Settled o.settings s.rules) : (o.simplifyRound s).outcome = .ok s := by
  obtain ⟨t, ht, -, hsettles⟩ := exists_cleanUp hsolver h
  obtain rfl := (hsettles hL).eq_of_settled hsettled
  rw [simplifyRound_outcome, simplifyFixed_eq_self hsolver hL h hcategorical hopen,
    Outcome.ok_bind, ht]

/-- A round changes nothing but the rules, and a second one changes nothing at all. -/
theorem exists_simplifyRound_of_isCategorical (hfeasible : o.isFeasible s = .ok true)
    (hnamed : ∀ r ∈ s.rules, ∀ n, r.name = pinName n → r.isPinFor n = true) :
    ∃ t, (o.simplifyRound s).outcome = .ok t ∧ RuleSet.Restates o.settings L s t ∧
      (o.simplifyRound t).outcome = .ok t := by
  obtain ⟨mid, hmid, hrestates, hopen⟩ :=
    exists_simplifyFixed_of_isCategorical hsolver hL h hcategorical hfeasible hnamed
  obtain ⟨t, ht, hrestates', hsubset, hsettled⟩ :=
    exists_cleanUp_of_isCategorical hsolver hL hrestates.fits hrestates.categorical
  have hall := hrestates.trans hrestates'
  refine ⟨t, by rw [simplifyRound_outcome, hmid, Outcome.ok_bind, ht], hall,
    simplifyRound_eq_self hsolver hL hall.fits hall.categorical (fun n hn hdetermined => ?_)
      hsettled⟩
  -- a variable with one label now had it before, and was plugged in
  obtain ⟨l, hl⟩ := hdetermined
  exact hopen n (hsubset hn) ⟨l, fun v hv => hl v ((hall.admissible_iff v).mpr hv)⟩

end Oracle

/-- **Simplifying rules about labels is exact.** For a feasible set of rules about labels in which
only pins have the names of pins, with decision variables of different names and an exact solver:
two rounds are enough, so at most one changes something, and an assignment satisfies the simplified
rules exactly when it satisfies the original ones. -/
theorem Oracle.exists_simplify_of_isCategorical (o : Oracle Rat) (s : RuleSet Rat)
    (hnames : ∀ p, Program.ofRules s.rules o.settings = .ok p → (p.vars.map (·.name)).Nodup)
    (hsolver : o.solver.Exact o.settings) (hfeasible : o.isFeasible s = .ok true)
    (hcategorical : ∀ r ∈ s.rules, r.IsCategorical)
    (hpins : ∀ r ∈ s.rules, ∀ n, r.name = pinName n → r.pins n = .ok true) :
    ∃ t, (o.simplify s []).outcome = .ok t ∧
      (∀ limit, (o.simplifyRounds limit 2 s).outcome = .ok t) ∧
      ∀ a : Assignment Rat, a.Suits (usesOf s.rules) →
        ((∀ r ∈ t.rules, r.expr.holds a 0 = .ok true) ↔
          ∀ r ∈ s.rules, r.expr.holds a 0 = .ok true) := by
  obtain ⟨L, hL, hfits, -⟩ := (kindConsistent_of_isFeasible hfeasible).exists_apart hnames
  obtain ⟨t, ht, hrestates, hsame⟩ := exists_simplifyRound_of_isCategorical hsolver hL hfits
    hcategorical hfeasible (isPinFor_of_pins hfits hpins)
  -- the first round changes nothing, or it leads to a set that the second one keeps
  have hrounds : ∀ limit n, (o.simplifyRounds limit (n + 2) s).outcome =
      .ok (if t == s then s else t) := fun limit n => by
    rw [simplifyRounds_succ, ht, Outcome.ok_bind]
    split
    · rfl
    · rw [simplifyRounds_succ, hsame, Outcome.ok_bind, beq_self_eq_true, if_pos rfl]
  refine ⟨if t == s then s else t, ?_, fun limit => hrounds limit 0, fun a ha => ?_⟩
  · rw [simplify_outcome rfl hfeasible, if_pos rfl]
    obtain ⟨n, hn⟩ : ∃ n, max 1 s.size = n + 1 := ⟨max 1 s.size - 1, by omega⟩
    rw [hn]
    exact hrounds _ n
  · split
    · exact Iff.rfl
    · exact hrestates.holds_iff hfits hcategorical ha

/-- A lamp is pinned to be red, and red lamps are on. -/
theorem Oracle.exists_simplify_of_isCategorical_lamp :
    let red : Clause Rat := .membership (.ofLabels ⟨"color", by decide⟩ ["red"] false)
    let on : Clause Rat := .membership (.ofLabels ⟨"state", by decide⟩ ["on"] false)
    let color : Rule Rat := ⟨".const_color", .atom red, none, by decide +kernel, by simp, none⟩
    let state : Rule Rat := ⟨"state", .ifThen (.atom red) (.atom on), none,
      by decide +kernel, by simp, none⟩
    let s : RuleSet Rat := ⟨[color, state], by decide⟩
    let solver := Solver.hinted [[("cat[color=red]", 1), ("cat[color]*", 0), ("cat[state=on]", 1),
      ("cat[state]*", 0), ("sel[1:state#0]", 0), ("sel[1:state#1]", 1)]]
    ∃ settings, Settings.default = .ok settings ∧
      (∃ p, Program.ofRules s.rules settings = .ok p ∧ (p.vars.map (·.name)).Nodup) ∧
      Oracle.isFeasible ⟨solver, settings⟩ s = .ok true ∧
      (∀ r ∈ s.rules, r.IsCategorical) ∧
      (∀ r ∈ s.rules, ∀ n, r.name = pinName n → r.pins n = .ok true) ∧
      ∃ t, (Oracle.simplify ⟨solver, settings⟩ s []).outcome = .ok t ∧
        (∀ limit, (Oracle.simplifyRounds ⟨solver, settings⟩ limit 2 s).outcome = .ok t) ∧
        ∀ a : Assignment Rat, a.Suits (usesOf s.rules) →
          ((∀ r ∈ t.rules, r.expr.holds a 0 = .ok true) ↔
            ∀ r ∈ s.rules, r.expr.holds a 0 = .ok true) := by
  intro red on color state s solver
  have hsome : (Settings.default (K := Rat)).toOption.any (fun settings =>
      (Program.ofRules s.rules settings).toOption.any (fun p =>
          decide (p.vars.map (·.name)).Nodup) &&
        decide ((Oracle.isFeasible ⟨solver, settings⟩ s).toOption = some true)) = true := by
    decide +kernel
  obtain ⟨settings, hsettings, hall⟩ := Outcome.exists_of_any_toOption hsome
  rw [Bool.and_eq_true, decide_eq_true_eq] at hall
  obtain ⟨hprogram, hfeasible⟩ := hall
  obtain ⟨p, hp, hnodup⟩ := Outcome.exists_of_any_toOption hprogram
  have hnames : ∀ q, Program.ofRules s.rules settings = .ok q → (q.vars.map (·.name)).Nodup :=
    fun q hq => by
      obtain rfl := Except.ok.inj (hp.symm.trans hq)
      exact of_decide_eq_true hnodup
  have hcategorical : ∀ r ∈ s.rules, r.IsCategorical := by decide +kernel
  have hpins : ∀ r ∈ s.rules, ∀ n, r.name = pinName n → r.pins n = .ok true := fun r hr n hn => by
    rcases List.mem_pair.mp hr with rfl | rfl
    · have hcolor : color.name = pinName "color" := rfl
      obtain rfl : "color" = n := pinName_injective (hcolor.symm.trans hn)
      exact Outcome.eq_ok_of_toOption (by decide +kernel)
    · exact absurd (prefix_of_eq_pinName hn) (by decide)
  exact ⟨settings, hsettings, ⟨p, hp, hnames p hp⟩, Outcome.eq_ok_of_toOption hfeasible,
    hcategorical, hpins, Oracle.exists_simplify_of_isCategorical ⟨solver, settings⟩ s hnames
      (Solver.hinted_exact _ settings) (Outcome.eq_ok_of_toOption hfeasible) hcategorical hpins⟩

end RuleAudit
