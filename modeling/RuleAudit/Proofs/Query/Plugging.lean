import RuleAudit.Proofs.Query.Fixed
import RuleAudit.Proofs.Query.Redundancy
import RuleAudit.Query.Simplify

/-!
# Plugging fixed variables in

A fixed variable that some rule is open in is a target. The values of the targets are plugged into
the rules; a rule that then always holds goes, and a target that no rule pins any more gets a pin
(`Oracle.exists_simplifyFixed`). Afterwards no rule is open in a target. A valuation that has the
values of the targets is as good as before, so the set stays feasible as long as rounding the values
has not moved them; a rounded value need not be a possible one.
-/

namespace RuleAudit

/-! ### Open variables -/

/-- The variables that some rule does not merely pin. -/
def openIn (rules : List (Rule Rat)) : List String :=
  rules.flatMap Rule.openVars

theorem mem_openIn {rules : List (Rule Rat)} {n : String} :
    n ∈ openIn rules ↔ ∃ r ∈ rules, n ∈ r.openVars :=
  List.mem_flatMap

/-- Open variables are in use. -/
theorem exists_mem_usesIn {rules : List (Rule Rat)} {n : String} (h : n ∈ openIn rules) :
    ∃ kind, (n, kind) ∈ usesIn rules := by
  obtain ⟨r, hr, hn⟩ := mem_openIn.mp h
  obtain ⟨kind, hu⟩ := Rule.mem_used.mp (Rule.mem_openVars.mp hn).1
  exact ⟨kind, mem_usesIn.mpr ⟨r, hr, hu⟩⟩

/-! ### One rule -/

/-- The values for numeric variables can be read as numbers. -/
def Assignment.Readable (values : Assignment Rat) (L : Lexicon) : Prop :=
  ∀ n x, Assoc.get? n values = some x → L.kinds n = .numeric → ∃ q : Rat, x.toNumber = .ok q

private theorem get?_filterMap {α : Type} {f : String → Option α} {names : List String}
    (n : String) : Assoc.get? n (names.filterMap fun m => (f m).map fun a => (m, a)) =
      if n ∈ names then f n else none := by
  induction names with
  | nil => rfl
  | cons m names ih =>
    cases hm : f m with
    | none =>
      rw [List.filterMap_cons_none (by rw [hm]; rfl), ih]
      by_cases heq : n = m
      · simp [heq, hm]
      · simp [heq]
    | some a =>
      rw [List.filterMap_cons_some (by rw [hm]; rfl), Assoc.get?_cons, ih]
      by_cases heq : m = n
      · simp [heq, ← hm]
      · simp [heq, Ne.symm heq]

private theorem eq_nil_iff_get? {α : Type} {l : List (String × α)} :
    l = [] ↔ ∀ n, Assoc.get? n l = none := by
  refine ⟨by rintro rfl n; rfl, fun h => ?_⟩
  cases l with
  | nil => rfl
  | cons e l => simpa [Assoc.get?_cons] using h e.1

namespace Oracle

variable {L : Lexicon} {r : Rule Rat} {values : Assignment Rat}

/-- A rule is given the values of those variables that it is open in. -/
theorem exists_bindingsFor (hr : r.Fits L) (values : Assignment Rat) :
    ∃ b, bindingsFor r values = .ok b ∧
      (∀ n, Assoc.get? n b = if n ∈ r.openVars then Assoc.get? n values else none) ∧
      (b.isEmpty = true ↔ ∀ n ∈ r.openVars, Assoc.get? n values = none) := by
  obtain ⟨vars, hvars, hmem⟩ := hr.exists_vars
  obtain ⟨d, hd, -⟩ := id hr
  let value? (n : String) : Option (Datum Rat) :=
    if r.isPinFor n then none else Assoc.get? n values
  have hget (n : String) : Assoc.get? n (vars.filterMap fun m => (value? m).map fun x => (m, x)) =
      if n ∈ r.openVars then Assoc.get? n values else none := by
    rw [get?_filterMap]
    simp only [Rule.mem_openVars, hmem, value?]
    by_cases hpin : r.isPinFor n = true <;> simp [hpin]
  refine ⟨_, ?_, hget, ?_⟩
  · rw [bindingsFor, hvars, Outcome.ok_bind, hd, Outcome.ok_bind]
    refine congrArg Except.ok (List.filterMap_congr fun n _ => ?_)
    simp only [value?, Rule.isPinFor_eq hd]
    split <;> rfl
  · rw [List.isEmpty_iff, eq_nil_iff_get?]
    refine ⟨fun h n hn => ?_, fun h n => ?_⟩
    · have hnone := h n
      rwa [hget, if_pos hn] at hnone
    · rw [hget]
      split
      · next hn => exact h n hn
      · rfl

/-- A rule goes when it always holds once the values are plugged in. -/
theorem exists_substituteFixed (hr : r.Fits L) (hvalues : values.Readable L) :
    ∃ r' b, r.IsPlugged values r' ∧ r'.isTautology = .ok b ∧
      substituteFixed values r = .ok (if b then none else some r') := by
  obtain ⟨bindings, hbindings, hget, hempty⟩ := exists_bindingsFor hr values
  have hslack : (0 : Rat) ≤ substitutionSlack := by
    change (0 : Rat) ≤ 1 / 1000000
    decide +kernel
  have hdone (r' : Rule Rat) (h : r'.Fits L) : ∃ b, r'.isTautology = .ok b ∧
      (do return if ← r'.isTautology then none else some r' : Except (Error Rat) _) =
        .ok (if b then none else some r') := by
    obtain ⟨d', hd', -⟩ := h
    refine ⟨d'.any (·.isEmpty), Rule.isTautology_eq hd', ?_⟩
    rw [Rule.isTautology_eq hd']
    rfl
  -- without values the rule is not made anew, and keeps its expression
  by_cases hnone : bindings.isEmpty = true
  · obtain ⟨b, hb, hout⟩ := hdone r hr
    refine ⟨r, b, Rule.isPlugged_self (hempty.mp hnone), hb, ?_⟩
    rw [substituteFixed, hbindings, Outcome.ok_bind, if_pos hnone]
    exact hout
  · obtain ⟨m, hm, hvalue⟩ : ∃ m ∈ r.openVars, Assoc.get? m values ≠ none := by
      simpa using mt hempty.mpr hnone
    obtain ⟨d, d', r', hd, hd', hsub, hname, hdnf, hexpr⟩ :=
      hr.exists_substitute bindings substitutionSlack (m := m)
        (Rule.mem_openVars.mp hm).1 (by rwa [hget, if_pos hm]) fun n hn x hx => by
          rw [hget] at hx
          split at hx
          · refine hvalues n x hx ?_
            obtain ⟨e, he, hwithin⟩ := id hr
            rw [Rule.clauses_eq he] at hn
            obtain ⟨c, hc, hn⟩ := List.mem_flatMap.mp hn
            exact (Dnf.within_iff_flatten.mp hwithin c hc).1.2 _ hn
          · cases hx
    have hplugged : r.IsPlugged values r' :=
      Rule.isPlugged_of_substitute hd hd' hdnf hget ⟨m, hm, hvalue⟩ hslack hexpr hname
    obtain ⟨b, hb, hout⟩ := hdone r' (hplugged.fits L hr)
    refine ⟨r', b, hplugged, hb, ?_⟩
    rw [substituteFixed, hbindings, Outcome.ok_bind, if_neg hnone, hsub, Outcome.ok_bind]
    exact hout

end Oracle

/-! ### All rules -/

/-- The values as data. -/
def bindings (fixed : List (String × FixedValue Rat)) : Assignment Rat :=
  fixed.map fun p => (p.1, p.2.toDatum)

/-- The fixed variables that some rule is open in. -/
def targetsIn (rules : List (Rule Rat)) (fixed : List (String × FixedValue Rat)) :
    List (String × FixedValue Rat) :=
  fixed.filter fun p => p.1 ∈ openIn rules

/-- What becomes of rules when values are plugged in and those that always hold are left out. -/
structure ArePlugged (values : Assignment Rat) (rules rules' : List (Rule Rat))
    (plug : Rule Rat → Rule Rat) (keep : Rule Rat → Bool) : Prop where
  eq : rules' = (rules.filter keep).map plug
  plugged : ∀ r ∈ rules, r.IsPlugged values (plug r)
  dropped : ∀ r ∈ rules, keep r = false → (plug r).AlwaysHolds

/-- What becomes of rules and targets: the rules with the values plugged in, and pins for targets
that are not pinned otherwise. -/
structure Replaces (targets : List (String × FixedValue Rat)) (rules rules' : List (Rule Rat)) :
    Prop where
  exists_parts : ∃ kept plug keep pin, ArePlugged (bindings targets) rules kept plug keep ∧
    (∀ p ∈ targets, ∃ n : VarName, n.1 = p.1 ∧ (pin p).IsPin n p.2) ∧
    rules' = kept ++ (targets.filter fun p => !kept.any (·.isPinFor p.1)).map pin

section Bindings

variable {fixed : List (String × FixedValue Rat)} {rules : List (Rule Rat)} {L : Lexicon}

theorem mem_targetsIn {p : String × FixedValue Rat} :
    p ∈ targetsIn rules fixed ↔ p ∈ fixed ∧ p.1 ∈ openIn rules := by
  simp [targetsIn]

theorem exists_of_get?_bindings {n : String} {x : Datum Rat}
    (h : Assoc.get? n (bindings fixed) = some x) : ∃ value, (n, value) ∈ fixed ∧
      value.toDatum = x := by
  obtain ⟨p, hp, heq⟩ := List.mem_map.mp (Assoc.mem_of_get? h)
  cases heq
  exact ⟨p.2, hp, rfl⟩

theorem get?_bindings_ne_none {n : String} :
    Assoc.get? n (bindings fixed) ≠ none ↔ ∃ value, (n, value) ∈ fixed := by
  rw [ne_eq, Assoc.get?_eq_none, not_not, bindings, List.map_map, List.mem_map]
  exact ⟨fun ⟨p, hp, hn⟩ => ⟨p.2, hn ▸ hp⟩, fun ⟨value, h⟩ => ⟨_, h, rfl⟩⟩

theorem readable_bindings (h : ∀ p ∈ fixed, L.kinds p.1 = p.2.kind) :
    (bindings fixed).Readable L := by
  intro n x hx hkind
  obtain ⟨value, hmem, rfl⟩ := exists_of_get?_bindings hx
  have hvalue := h _ hmem
  cases value with
  | number q => exact ⟨q, rfl⟩
  | label l => rw [hkind] at hvalue; cases hvalue

end Bindings

namespace Oracle

variable {o : Oracle Rat} {L : Lexicon} {s : RuleSet Rat} {v : Valuation}
  {fixed : List (String × FixedValue Rat)}

private theorem filterM_targets (h : ∀ r ∈ s.rules, r.Fits L) :
    ((bindings fixed).filterM fun target => s.rules.anyM fun r =>
      return !(← bindingsFor r [target]).isEmpty) = .ok (bindings (targetsIn s.rules fixed)) := by
  have hopen (target : String × Datum Rat) : (s.rules.anyM fun r =>
      return !(← bindingsFor r [target]).isEmpty) = .ok (decide (target.1 ∈ openIn s.rules)) := by
    have heach : ∀ r ∈ s.rules, (do return !(← bindingsFor r [target]).isEmpty : Except _ Bool) =
        .ok (decide (target.1 ∈ r.openVars)) := fun r hr => by
      obtain ⟨b, hb, -, hempty⟩ := exists_bindingsFor (h r hr) [target]
      rw [hb, Outcome.ok_bind]
      refine congrArg Except.ok (Bool.eq_iff_iff.mpr ?_)
      rw [Bool.not_eq_true', Bool.eq_false_iff, ne_eq, hempty, decide_eq_true_eq]
      simp [Assoc.get?_cons]
    rw [Outcome.anyM_eq_any heach]
    refine congrArg Except.ok (Bool.eq_iff_iff.mpr ?_)
    simp [mem_openIn]
  rw [Outcome.filterM_eq_filter fun target _ => hopen target, bindings, List.filter_map]
  rfl

private theorem filterMap_ite {α β : Type} (p : α → Bool) (f : α → β) (l : List α) :
    l.filterMap (fun a => if p a then none else some (f a)) = (l.filter fun a => !p a).map f := by
  rw [← List.filterMap_eq_map, List.filterMap_filter]
  exact List.filterMap_congr fun a _ => by cases p a <;> rfl

/-- The pins for the targets that no rule pins. -/
private theorem exists_pins {rules : List (Rule Rat)} {table : List (String × VarKind)}
    {targets : List (String × FixedValue Rat)} (h : ∀ r ∈ rules, r.Fits L)
    (htab : Tabulates table (usesIn s.rules))
    (huses : ∀ p ∈ targets, (p.1, p.2.kind) ∈ usesIn s.rules) :
    ∃ pin : String × FixedValue Rat → Rule Rat,
      (∀ p ∈ targets, ∃ n : VarName, n.1 = p.1 ∧ (pin p).IsPin n p.2) ∧
      ((bindings targets).filterMapM fun (var, value) => do
        if ← rules.anyM fun r : Rule Rat => r.pins var then return none
        return some (← Rule.pin (.text var) value (Assoc.get? var table))) =
      .ok ((targets.filter fun p : String × FixedValue Rat =>
        !rules.any fun r : Rule Rat => r.isPinFor p.1).map pin) := by
  have hpins : ∀ p ∈ targets, ∃ r, Rule.pin (.text p.1) p.2.toDatum (Assoc.get? p.1 table) = .ok r ∧
      ∃ n : VarName, n.1 = p.1 ∧ r.IsPin n p.2 := fun p hp => by
    rw [htab.get?_eq_some.mpr (huses p hp)]
    obtain ⟨r, hr, hpin⟩ := Rule.exists_pin ⟨p.1, ne_empty_of_mem_usesIn (huses p hp)⟩ p.2
    exact ⟨r, hr, _, rfl, hpin⟩
  have : Nonempty (Rule Rat) :=
    (Rule.exists_pin ⟨"x", by decide⟩ (.number 0)).nonempty
  choose! pin hmade hpin using hpins
  refine ⟨pin, hpin, ?_⟩
  have hany (n : String) : rules.anyM (fun r => r.pins n) = .ok (rules.any (·.isPinFor n)) := by
    refine Outcome.anyM_eq_any fun r hr => ?_
    obtain ⟨d, hd, -⟩ := h r hr
    exact Rule.pins_eq hd n
  have heach : ∀ p ∈ targets, (do
      if ← rules.anyM (·.pins p.1) then return none
      return some (← Rule.pin (.text p.1) p.2.toDatum (Assoc.get? p.1 table)) :
        Except (Error Rat) (Option (Rule Rat))) =
      .ok (if rules.any (·.isPinFor p.1) then none else some (pin p)) := fun p hp => by
    rw [hany, Outcome.ok_bind]
    split
    · rfl
    · rw [hmade p hp]
      rfl
  rw [bindings, Outcome.filterMapM_map, ← filterMap_ite]
  exact Outcome.filterMapM_eq_filterMap heach

/-- Either there is no target, or the rules and targets are replaced. -/
theorem exists_simplifyFixed (h : ∀ r ∈ s.rules, r.Fits L)
    (hfixed : (o.fixed s).outcome = .ok fixed)
    (huses : ∀ p ∈ fixed, (p.1, p.2.kind) ∈ usesIn s.rules) :
    targetsIn s.rules fixed = [] ∧ (o.simplifyFixed s).outcome = .ok s ∨
      targetsIn s.rules fixed ≠ [] ∧ ∃ rules', Replaces (targetsIn s.rules fixed) s.rules rules' ∧
        (o.simplifyFixed s).outcome = RuleSet.ofList rules' := by
  have hsimplify : (o.simplifyFixed s).outcome = (do
      let fixed ← (o.fixed s).outcome
      let targets ← (bindings fixed).filterM fun target => s.rules.anyM fun r =>
        return !(← bindingsFor r [target]).isEmpty
      if targets.isEmpty then return s
      let kinds ← s.kinds
      let rules ← s.rules.filterMapM (substituteFixed targets)
      let pins ← targets.filterMapM fun (var, value) => do
        if ← rules.anyM (·.pins var) then return none
        return some (← Rule.pin (.text var) value (Assoc.get? var kinds))
      RuleSet.ofList (rules ++ pins)) := by
    rw [simplifyFixed, Reported.outcome_bind]
    rfl
  rw [hsimplify, hfixed, Outcome.ok_bind, filterM_targets h, Outcome.ok_bind]
  have huses' : ∀ p ∈ targetsIn s.rules fixed, (p.1, p.2.kind) ∈ usesIn s.rules := fun p hp =>
    huses p (mem_targetsIn.mp hp).1
  generalize targetsIn s.rules fixed = targets at huses' ⊢
  by_cases hempty : targets = []
  · subst hempty
    exact .inl ⟨rfl, rfl⟩
  refine .inr ⟨hempty, ?_⟩
  have hreadable : (bindings targets).Readable L :=
    readable_bindings fun p hp => kind_of_mem_usesIn h (huses' p hp)
  have hplug : ∀ r ∈ s.rules, ∃ r' b, r.IsPlugged (bindings targets) r' ∧ r'.isTautology = .ok b ∧
      substituteFixed (bindings targets) r = .ok (if b then none else some r') :=
    fun r hr => exists_substituteFixed (h r hr) hreadable
  choose! plug always hplugged halways hsubstitute using hplug
  obtain ⟨table, htable, htab⟩ := RuleSet.exists_kinds (kindConsistent_of_fits h)
  let kept := (s.rules.filter fun r => !always r).map plug
  have hkept : s.rules.filterMapM (substituteFixed (bindings targets)) = .ok kept := by
    rw [Outcome.filterMapM_eq_filterMap hsubstitute, filterMap_ite]
  have hkeptFits : ∀ r ∈ kept, r.Fits L := fun r' hr' => by
    obtain ⟨r, hr, rfl⟩ := List.mem_map.mp hr'
    have hmem := (List.mem_filter.mp hr).1
    exact (hplugged r hmem).fits L (h r hmem)
  obtain ⟨pin, hpin, hpins⟩ := exists_pins hkeptFits htab huses'
  have hnonempty : (bindings targets).isEmpty = false := by
    simpa [bindings] using hempty
  refine ⟨_, ⟨kept, plug, fun r => !always r, pin, ⟨rfl, hplugged, fun r hr hdropped => ?_⟩, hpin,
    rfl⟩, ?_⟩
  · rw [Rule.AlwaysHolds, halways r hr, Bool.not_eq_eq_eq_not.mp hdropped]
    rfl
  · rw [hnonempty, if_neg Bool.false_ne_true, htable, Outcome.ok_bind, hkept, Outcome.ok_bind,
      hpins, Outcome.ok_bind]

end Oracle

/-! ### The rules afterwards -/

theorem pinName_injective {m n : String} (h : pinName m = pinName n) : m = n :=
  (String.append_right_inj _).mp h

theorem prefix_of_eq_pinName {name n : String} (h : name = pinName n) :
    ".const_".toList <+: name.toList := by
  rw [h, pinName, String.toList_append]
  exact List.prefix_append _ _

section Replaces

variable {rules rules' : List (Rule Rat)} {targets : List (String × FixedValue Rat)}
  {L : Lexicon} {settings : Settings Rat} {v : Valuation}

/-- Whether a rule pins a variable can be asked of every rule with a normal form. -/
theorem isPinFor_of_pins (h : ∀ r ∈ rules, r.Fits L)
    (hpins : ∀ r ∈ rules, ∀ n, r.name = pinName n → r.pins n = .ok true) :
    ∀ r ∈ rules, ∀ n, r.name = pinName n → r.isPinFor n = true := fun r hr n hn => by
  obtain ⟨d, hd, -⟩ := h r hr
  have hpin := hpins r hr n hn
  rw [Rule.pins_eq hd] at hpin
  exact Except.ok.inj hpin

/-- A valuation that has the values of targets matches them. -/
theorem matches_of_isAt (h : ∀ r ∈ rules, r.Fits L) (hsuits : ∀ p ∈ targets, p.2.Suits L p.1)
    (hat : ∀ p ∈ targets, p.2.IsAt v p.1) : v.Matches (bindings targets) (usesIn rules) := by
  rintro ⟨n, kind⟩ hu x hx
  obtain ⟨value, hmem, rfl⟩ := exists_of_get?_bindings hx
  have hkind : value.kind = kind := (hsuits _ hmem).1.symm.trans (kind_of_mem_usesIn h hu)
  have hvalue : value.IsAt v n := hat _ hmem
  subst hkind
  cases value with
  | number q =>
    have hnumber : v.number n = q := hvalue
    exact congrArg Except.ok hnumber.symm
  | label l => exact hvalue

namespace Replaces

variable (hreplaces : Replaces targets rules rules')

include hreplaces

theorem fits (h : ∀ r ∈ rules, r.Fits L) (hsuits : ∀ p ∈ targets, p.2.Suits L p.1) :
    ∀ r ∈ rules', r.Fits L := by
  obtain ⟨kept, plug, keep, pin, ⟨rfl, hplugged, -⟩, hpin, rfl⟩ := hreplaces
  refine List.forall_mem_append.mpr ⟨List.forall_mem_map.mpr fun r hr => ?_,
    List.forall_mem_map.mpr fun p hp => ?_⟩
  · have hmem := (List.mem_filter.mp hr).1
    exact (hplugged r hmem).fits L (h r hmem)
  · have hmem := (List.mem_filter.mp hp).1
    obtain ⟨n, hn, hpin⟩ := hpin p hmem
    exact hpin.fits (hn ▸ hsuits p hmem)

/-- A valuation with the values of the targets stays admissible. -/
theorem admissible (h : ∀ r ∈ rules, r.Fits L) (hsuits : ∀ p ∈ targets, p.2.Suits L p.1)
    (hat : ∀ p ∈ targets, p.2.IsAt v p.1) (hv : Admissible settings rules v) :
    Admissible settings rules' v := by
  have hmatches := matches_of_isAt h hsuits hat
  obtain ⟨kept, plug, keep, pin, ⟨rfl, hplugged, -⟩, hpin, rfl⟩ := hreplaces
  refine admissible_append.mpr ⟨⟨hv.inBox, List.forall_mem_map.mpr fun r hr => ?_⟩,
    List.forall_mem_map.mpr fun p hp => ?_⟩
  · have hmem := (List.mem_filter.mp hr).1
    exact (hplugged r hmem).tight settings v
      (hmatches.mono fun u hu => mem_usesIn.mpr ⟨r, hmem, hu⟩) (hv.tight r hmem)
  · have hmem := (List.mem_filter.mp hp).1
    obtain ⟨n, hn, hpin⟩ := hpin p hmem
    exact hpin.tightAt_iff.mpr (hn ▸ hat p hmem)

/-- Rules are open in no target any more, and in no other variable than before. -/
theorem mem_openIn {n : String} (hn : n ∈ openIn rules') :
    n ∈ openIn rules ∧ ∀ value, (n, value) ∉ targets := by
  obtain ⟨kept, plug, keep, pin, ⟨rfl, hplugged, -⟩, hpin, rfl⟩ := hreplaces
  obtain ⟨r', hr', hn⟩ := RuleAudit.mem_openIn.mp hn
  rcases List.mem_append.mp hr' with hr' | hr'
  · obtain ⟨r, hr, rfl⟩ := List.mem_map.mp hr'
    have hmem := (List.mem_filter.mp hr).1
    obtain ⟨hopen, hnone⟩ := (hplugged r hmem).openVars n hn
    exact ⟨RuleAudit.mem_openIn.mpr ⟨r, hmem, hopen⟩, fun value hvalue =>
      get?_bindings_ne_none.mpr ⟨value, hvalue⟩ hnone⟩
  · obtain ⟨p, hp, rfl⟩ := List.mem_map.mp hr'
    obtain ⟨m, -, hpin⟩ := hpin p (List.mem_filter.mp hp).1
    rw [hpin.openVars] at hn
    cases hn

theorem isCategorical (hcategorical : ∀ r ∈ rules, r.IsCategorical)
    (hkinds : ∀ p ∈ targets, p.2.kind = .categorical) : ∀ r ∈ rules', r.IsCategorical := by
  obtain ⟨kept, plug, keep, pin, ⟨rfl, hplugged, -⟩, hpin, rfl⟩ := hreplaces
  refine List.forall_mem_append.mpr ⟨List.forall_mem_map.mpr fun r hr => ?_,
    List.forall_mem_map.mpr fun p hp => ?_⟩
  · have hmem := (List.mem_filter.mp hr).1
    exact (hplugged r hmem).categorical (hcategorical r hmem)
  · have hmem := (List.mem_filter.mp hp).1
    obtain ⟨n, -, hpin⟩ := hpin p hmem
    exact hpin.isCategorical (hkinds p hmem)

/-- Only a rule that is named like a pin without being one can be in the way of the pin. -/
theorem ofList_cases (h : ∀ r ∈ rules, r.Fits L) (hnodup : (rules.map (·.name)).Nodup)
    (htargets : (targets.map (·.1)).Nodup) :
    (∃ t, RuleSet.ofList rules' = .ok t) ∨ ∃ p ∈ targets, ∃ r ∈ rules, r.name = pinName p.1 ∧
      r.isPinFor p.1 = false ∧
      RuleSet.ofList rules' = .error (.definition ⟨.text (pinName p.1), none⟩ .duplicateRule) := by
  obtain ⟨kept, plug, keep, pin, ⟨rfl, hplugged, -⟩, hpin, rfl⟩ := hreplaces
  have hname : ∀ p ∈ targets, (pin p).name = pinName p.1 := fun p hp => by
    obtain ⟨n, hn, hpin⟩ := hpin p hp
    rw [hpin.name, hn]
  have hkept : (((rules.filter keep).map plug).map (·.name)).Nodup := by
    have hnames : ((rules.filter keep).map plug).map (·.name) =
        (rules.filter keep).map (·.name) := by
      rw [List.map_map]
      exact List.map_congr_left fun r hr => (hplugged r (List.mem_filter.mp hr).1).name
    rw [hnames]
    exact hnodup.sublist (List.filter_sublist.map _)
  have hpins : (((targets.filter fun p =>
      !((rules.filter keep).map plug).any (·.isPinFor p.1)).map pin).map (·.name)).Nodup := by
    have hnames : ∀ free : List (String × FixedValue Rat), free.Sublist targets →
        ((free.map pin).map (·.name)).Nodup := fun free hfree => by
      have hnames : (free.map pin).map (·.name) = (free.map (·.1)).map pinName := by
        rw [List.map_map, List.map_map]
        exact List.map_congr_left fun p hp => hname p (hfree.subset hp)
      rw [hnames]
      exact (htargets.sublist (hfree.map _)).map fun _ _ => pinName_injective
    exact hnames _ List.filter_sublist
  rcases RuleSet.ofList_append_cases hkept hpins with hok | ⟨q, hq, p', hp', hsame, herror⟩
  · exact .inl hok
  obtain ⟨r, hr, rfl⟩ := List.mem_map.mp hq
  obtain ⟨p, hp, rfl⟩ := List.mem_map.mp hp'
  obtain ⟨hr, -⟩ := List.mem_filter.mp hr
  obtain ⟨hp, hfree⟩ := List.mem_filter.mp hp
  rw [hname p hp] at hsame herror
  refine .inr ⟨p, hp, r, hr, (hplugged r hr).name.symm.trans hsame, ?_, herror⟩
  -- a rule that is the pin stays as it is, so no other pin is made
  rw [Bool.not_eq_true', List.any_eq_false] at hfree
  refine Bool.eq_false_iff.mpr fun hpinned => hfree _ hq ?_
  obtain ⟨d, hd, -⟩ := h r hr
  have hclosed := Rule.openVars_of_isPinFor hd hpinned
  rw [(hplugged r hr).unchanged (by rw [hclosed]; exact List.forall_mem_nil _)]
  exact hpinned

/-- The names stay different when the rules with the name of a pin are pins. -/
theorem nodup_names (h : ∀ r ∈ rules, r.Fits L)
    (hnamed : ∀ r ∈ rules, ∀ n, r.name = pinName n → r.isPinFor n = true)
    (hnodup : (rules.map (·.name)).Nodup) (htargets : (targets.map (·.1)).Nodup) :
    (rules'.map (·.name)).Nodup := by
  obtain ⟨t, ht⟩ | ⟨p, -, r, hr, hname, hpinned, -⟩ := hreplaces.ofList_cases h hnodup htargets
  · exact RuleSet.rules_of_ofList ht ▸ t.distinct
  · exact absurd (hnamed r hr p.1 hname) (Bool.eq_false_iff.mp hpinned)

/-- A valuation that is admissible afterwards was so before, for rules about labels and targets that
have their values in all admissible valuations. -/
theorem admissible_of_isCategorical (h : ∀ r ∈ rules, r.Fits L)
    (hsuits : ∀ p ∈ targets, p.2.Suits L p.1) (hcategorical : ∀ r ∈ rules, r.IsCategorical)
    (hat : ∀ w, Admissible settings rules w → ∀ p ∈ targets, p.2.IsAt w p.1)
    (hsat : Satisfiable settings rules) (hv : Admissible settings rules' v) :
    Admissible settings rules v := by
  obtain ⟨w, hw⟩ := hsat
  obtain ⟨kept, plug, keep, pin, ⟨rfl, hplugged, hdropped⟩, hpin, rfl⟩ := hreplaces
  obtain ⟨hkept, hpins⟩ := admissible_append.mp hv
  -- a target is pinned by a rule that was there before, or by a new pin
  have hatV : ∀ p ∈ targets, p.2.IsAt v p.1 := fun p hp => by
    by_cases hany : (((rules.filter keep).map plug).any (·.isPinFor p.1)) = true
    · obtain ⟨r', hr', hpinned⟩ := List.any_eq_true.mp hany
      obtain ⟨r, hr, rfl⟩ := List.mem_map.mp hr'
      have hmem := (List.mem_filter.mp hr).1
      have hsame : plug r = r :=
        (hplugged r hmem).pinned p.1 hpinned (get?_bindings_ne_none.mpr ⟨p.2, hp⟩)
      rw [hsame] at hr' hpinned
      obtain ⟨huse, hlabel⟩ := (hcategorical r hmem).label_eq_of_isPinFor hpinned
        (hkept.tight r hr') (hw.tight r hmem)
      have hkind : p.2.kind = .categorical := (hsuits p hp).1.symm.trans
        (kind_of_mem_usesIn h (mem_usesIn.mpr ⟨r, hmem, huse⟩))
      exact FixedValue.isAt_congr hkind hlabel (hat w hw p hp)
    · rw [Bool.not_eq_true] at hany
      obtain ⟨n, hn, hpinP⟩ := hpin p hp
      have hfree : p ∈ targets.filter fun p =>
          !((rules.filter keep).map plug).any (·.isPinFor p.1) :=
        List.mem_filter.mpr ⟨hp, by rw [hany]; rfl⟩
      exact hn ▸ hpinP.tightAt_iff.mp (hpins (pin p) (List.mem_map_of_mem hfree))
  have hmatches := matches_of_isAt h hsuits hatV
  refine ⟨hv.inBox, fun r hr => ?_⟩
  refine (hplugged r hr).tight_of (hcategorical r hr) settings v
    (hmatches.mono fun u hu => mem_usesIn.mpr ⟨r, hr, hu⟩) ?_
  cases hkeep : keep r with
  | true => exact hkept.tight _ (List.mem_map_of_mem (List.mem_filter.mpr ⟨hr, hkeep⟩))
  | false => exact (hdropped r hr hkeep).tightAt

end Replaces

end Replaces

/-! ### Feasibility afterwards -/

/-- **Plugging fixed variables in keeps a set feasible, when rounding moves no value.** This is so
for rules of which only pins have the names of pins: a set in which the variables fixed by some
point are plugged in is feasible if the point has the rounded values. -/
theorem Oracle.exists_simplifyFixed_isFeasible (o : Oracle Rat) (s : RuleSet Rat)
    (hrules : KindConsistent s.rules)
    (hnames : ∀ p, Program.ofRules s.rules o.settings = .ok p → (p.vars.map (·.name)).Nodup)
    (hsolver : o.solver.Exact o.settings) (hfeasible : o.isFeasible s = .ok true)
    (hpins : ∀ r ∈ s.rules, ∀ n, r.name = pinName n → r.pins n = .ok true)
    (hround : ∀ f fixed, o.check s = .ok f → (o.fixed s).outcome = .ok fixed →
      ∀ n x, (n, .number x) ∈ fixed → Assoc.get? n f.assignment = some (.number x)) :
    ∃ t, (o.simplifyFixed s).outcome = .ok t ∧ o.isFeasible t = .ok true := by
  obtain ⟨L, hL, hfits, -⟩ := hrules.exists_apart hnames
  obtain ⟨f, fixed, v, hcheck, hfixed, hfixes, hread⟩ := exists_fixes hsolver hfits hfeasible
  have hat : ∀ p ∈ fixed, p.2.IsAt v p.1 := fun p hp => by
    refine hfixes.isAt hfits hp fun x hx => ?_
    have huse := (hfixes.suits hfits hp).2
    have hfound := hround f fixed hcheck hfixed p.1 x (hx ▸ hp)
    rw [hread _ huse, hx] at hfound
    exact Reading.number.inj (Option.some.inj hfound)
  have htargets : ∀ p ∈ targetsIn s.rules fixed, p ∈ fixed := fun p hp => (mem_targetsIn.mp hp).1
  rcases exists_simplifyFixed hfits hfixed fun p hp => (hfixes.suits hfits hp).2 with
    ⟨-, hsame⟩ | ⟨-, rules', hreplaces, hofList⟩
  · exact ⟨s, hsame, hfeasible⟩
  · have hsuits : ∀ p ∈ targetsIn s.rules fixed, p.2.Suits L p.1 := fun p hp =>
      (hfixes.suits hfits (htargets p hp)).1
    have hnodup := hreplaces.nodup_names hfits (isPinFor_of_pins hfits hpins) s.distinct
      (hfixes.nodup.sublist (List.filter_sublist.map _))
    have hfits' := hreplaces.fits hfits hsuits
    refine ⟨⟨rules', hnodup⟩, by rw [hofList, RuleSet.ofList, dif_pos hnodup], ?_⟩
    exact (isFeasible_iff hsolver hL hfits').mpr ⟨v, hreplaces.admissible hfits hsuits
      (fun p hp => hat p (htargets p hp)) hfixes.admissible⟩

/-- A number is the one that was found. -/
def Feasibility.finds (f : Feasibility Rat) (p : String × FixedValue Rat) : Bool :=
  match p.2, Assoc.get? p.1 f.assignment with
  | .number x, some (.number y) => decide (x = y)
  | .number _, _ => false
  | .label _, _ => true

theorem Feasibility.get?_of_finds (f : Feasibility Rat) {n : String} {x : Rat}
    (h : f.finds (n, .number x) = true) : Assoc.get? n f.assignment = some (.number x) := by
  rw [finds] at h
  dsimp only at h
  split at h
  · next y y' heq hget =>
    cases heq
    rw [hget, of_decide_eq_true h]
  · cases h
  · next heq => cases heq

/-- A lower bound with its variable fixed to two is decided and goes. -/
theorem Oracle.exists_simplifyFixed_isFeasible_bound :
    let two : Rule Rat := ⟨"two", .atom (.linear (.canonical [(⟨"x", by decide⟩, 1)] .eq 2)), none,
      by decide +kernel, by simp, none⟩
    let low : Rule Rat := ⟨"low", .atom (.linear (.canonical [(⟨"x", by decide⟩, 1)] .ge 1)), none,
      by decide, by simp, none⟩
    let s : RuleSet Rat := ⟨[two, low], by decide⟩
    let solver := Solver.hinted [[("num[x]", 2)]]
    KindConsistent s.rules ∧ ∃ settings, Settings.default = .ok settings ∧
      (∃ p, Program.ofRules s.rules settings = .ok p ∧ (p.vars.map (·.name)).Nodup) ∧
      Oracle.isFeasible ⟨solver, settings⟩ s = .ok true ∧
      ∃ t, (Oracle.simplifyFixed ⟨solver, settings⟩ s).outcome = .ok t ∧
        Oracle.isFeasible ⟨solver, settings⟩ t = .ok true := by
  intro two low s solver
  have hkinds : KindConsistent s.rules := by decide +kernel
  have hsome : (Settings.default (K := Rat)).toOption.any (fun settings =>
      (Program.ofRules s.rules settings).toOption.any (fun p =>
          decide (p.vars.map (·.name)).Nodup) &&
        decide ((Oracle.isFeasible ⟨solver, settings⟩ s).toOption = some true) &&
        (Oracle.check ⟨solver, settings⟩ s).toOption.any fun f =>
          (Oracle.fixed ⟨solver, settings⟩ s).outcome.toOption.any fun fixed =>
            fixed.all f.finds) = true := by
    decide +kernel
  obtain ⟨settings, hsettings, hall⟩ := Outcome.exists_of_any_toOption hsome
  rw [Bool.and_eq_true, Bool.and_eq_true, decide_eq_true_eq] at hall
  obtain ⟨⟨hnames, hfeasible⟩, hfinds⟩ := hall
  obtain ⟨p, hp, hnodup⟩ := Outcome.exists_of_any_toOption hnames
  obtain ⟨f, hf, hfixed⟩ := Outcome.exists_of_any_toOption hfinds
  obtain ⟨fixed, hfixed, hall⟩ := Outcome.exists_of_any_toOption hfixed
  refine ⟨hkinds, settings, hsettings, ⟨p, hp, of_decide_eq_true hnodup⟩,
    Outcome.eq_ok_of_toOption hfeasible, ?_⟩
  refine Oracle.exists_simplifyFixed_isFeasible ⟨solver, settings⟩ s hkinds (fun q hq => ?_)
    (Solver.hinted_exact _ settings) (Outcome.eq_ok_of_toOption hfeasible) (fun r hr n hn => ?_)
    fun f' fixed' hf' hfixed' n x hx => ?_
  · obtain rfl := Except.ok.inj (hp.symm.trans hq)
    exact of_decide_eq_true hnodup
  · -- neither rule has the name of a pin
    have hname := prefix_of_eq_pinName hn
    rcases List.mem_pair.mp hr with rfl | rfl <;> exact absurd hname (by decide)
  · obtain rfl := Except.ok.inj (hf.symm.trans hf')
    obtain rfl := Except.ok.inj (hfixed.symm.trans hfixed')
    exact f.get?_of_finds (List.all_eq_true.mp hall _ hx)

/-- A third, rounded to nine places, is below the bound that a third is above. -/
theorem Oracle.simplifyFixed_infeasible :
    let third : Rule Rat := ⟨"third", .atom (.linear (.canonical [(⟨"x", by decide⟩, 3)] .eq 1)),
      none, by decide +kernel, by simp, none⟩
    let far : Rule Rat := ⟨"far", .atom (.linear (.canonical [(⟨"x", by decide⟩, 1000000)] .ge
      (3333333333 / 10000))), none, by decide, by simp, none⟩
    let s : RuleSet Rat := ⟨[third, far], by decide⟩
    let solver := Solver.hinted [[("num[x]", 1 / 3)]]
    ∃ settings t, Settings.default = .ok settings ∧ solver.Exact settings ∧
      Oracle.isFeasible ⟨solver, settings⟩ s = .ok true ∧
      (Oracle.simplifyFixed ⟨solver, settings⟩ s).outcome = .ok t ∧ t.names = ["third", "far"] ∧
      Oracle.isFeasible ⟨solver, settings⟩ t = .ok false := by
  intro third far s solver
  have hsome : (Settings.default (K := Rat)).toOption.any (fun settings =>
      decide ((Oracle.isFeasible ⟨solver, settings⟩ s).toOption = some true) &&
        (Oracle.simplifyFixed ⟨solver, settings⟩ s).outcome.toOption.any fun t =>
          decide (t.names = ["third", "far"]) &&
            decide ((Oracle.isFeasible ⟨solver, settings⟩ t).toOption = some false)) = true := by
    decide +kernel
  obtain ⟨settings, hsettings, hall⟩ := Outcome.exists_of_any_toOption hsome
  rw [Bool.and_eq_true, decide_eq_true_eq] at hall
  obtain ⟨t, ht, hinfeasible⟩ := Outcome.exists_of_any_toOption hall.2
  rw [Bool.and_eq_true, decide_eq_true_eq, decide_eq_true_eq] at hinfeasible
  exact ⟨settings, t, hsettings, Solver.hinted_exact _ settings,
    Outcome.eq_ok_of_toOption hall.1, ht, hinfeasible.1,
    Outcome.eq_ok_of_toOption hinfeasible.2⟩

end RuleAudit
