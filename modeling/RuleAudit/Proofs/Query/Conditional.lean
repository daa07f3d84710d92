import RuleAudit.Proofs.Query.Hinted
import RuleAudit.Proofs.Query.Verdict
import RuleAudit.Proofs.Rule.Bind
import RuleAudit.Proofs.RuleSet
import RuleAudit.Query.Simplify

/-!
# Terms that cannot hold

A term of a rule is alive when some admissible valuation satisfies it. Dropping the terms that are
not does not change which valuations are admissible, so it does not matter in which order the rules
are looked at, and in the end every rule of several terms has only terms that are alive
(`Oracle.exists_simplifyConditional`). In a feasible set, single terms are alive anyway, and one
pass is enough (`Oracle.exists_simplifyConditional_alive`).
-/

namespace RuleAudit

/-! ### Rules with fewer terms -/

/-- A rule with some of the terms of another one. Rules of fewer than two terms keep them. -/
structure Rule.IsTrimmed (r r' : Rule Rat) : Prop where
  name : r'.name = r.name
  exprUses : r'.expr.uses ⊆ r.expr.uses
  exists_dnf : ∃ d d', r.dnf = .ok d ∧ r'.dnf = .ok d' ∧ d'.Sublist d ∧
    (d'.length = d.length ∨ d.length < 2 → r' = r)

namespace Rule.IsTrimmed

variable {r r' r'' : Rule Rat} {L : Lexicon} {settings : Settings Rat} {v : Valuation}

theorem refl {d : Dnf Rat} (hd : r.dnf = .ok d) : r.IsTrimmed r :=
  ⟨rfl, List.Subset.refl _, d, d, hd, hd, List.Sublist.refl d, fun _ => rfl⟩

theorem trans (h : r.IsTrimmed r') (h' : r'.IsTrimmed r'') : r.IsTrimmed r'' := by
  obtain ⟨hname, huses, d, d', hd, hd', hsub, hsame⟩ := h
  obtain ⟨hname', huses', e, d'', he, hd'', hsub', hsame'⟩ := h'
  obtain rfl := Except.ok.inj (hd'.symm.trans he)
  refine ⟨hname'.trans hname, List.Subset.trans huses' huses, d, d'', hd, hd'', hsub'.trans hsub,
    fun hlength => ?_⟩
  have hle := hsub.length_le
  have hle' := hsub'.length_le
  rw [hsame' (by omega), hsame (by omega)]

/-- The rule that is made of some of the terms. -/
theorem exists_of_sublist {d kept : Dnf Rat} (hd : r.dnf = .ok d)
    (hproper : d.Within Clause.IsProper) (hsub : kept.Sublist d)
    (hshorter : kept.length < d.length) (hlength : ¬ d.length < 2) :
    ∃ r', Rule.ofDnf (.text r.name) kept = .ok r' ∧ r'.dnf = .ok kept ∧ r.IsTrimmed r' := by
  obtain ⟨r', hr', hname, hdnf, hexpr⟩ := Rule.exists_ofDnf r.named (d := kept)
    fun term hterm => hproper term (hsub.subset hterm)
  rw [(isReduced hd).reduce_sublist hsub] at hdnf hexpr
  have hexprUses : r'.expr.uses ⊆ r.expr.uses := by
    rw [hexpr]
    refine List.Subset.trans (Expr.uses_ofDnf_subset kept) fun u hu => ?_
    obtain ⟨c, hc, hu⟩ := List.mem_flatMap.mp hu
    obtain ⟨term, hterm, hmem⟩ := List.mem_flatten.mp hc
    refine uses_dnf_subset hd (List.mem_flatMap.mpr ⟨c, ?_, hu⟩)
    exact List.mem_flatten.mpr ⟨term, hsub.subset hterm, hmem⟩
  exact ⟨r', hr', hdnf, hname, hexprUses, d, kept, hd, hdnf, hsub, fun hcase => by omega⟩

variable (h : r.IsTrimmed r')

include h

theorem subset_clauses : r'.clauses ⊆ r.clauses := by
  obtain ⟨-, -, d, d', hd, hd', hsub, -⟩ := h
  rw [clauses_eq hd, clauses_eq hd']
  intro c hc
  obtain ⟨term, hterm, hmem⟩ := List.mem_flatten.mp hc
  exact List.mem_flatten.mpr ⟨term, hsub.subset hterm, hmem⟩

theorem fits (hr : r.Fits L) : r'.Fits L := by
  obtain ⟨-, -, d, d', hd, hd', hsub, -⟩ := h
  exact ⟨d', hd', fun term hterm => hr.within hd term (hsub.subset hterm)⟩

theorem isCategorical (hr : r.IsCategorical) : r'.IsCategorical :=
  fun c hc => hr c (h.subset_clauses hc)

/-- A pin has a single term. -/
theorem eq_of_isPinFor {n : String} (hpin : r.isPinFor n = true) : r' = r := by
  obtain ⟨-, -, d, d', hd, -, -, hsame⟩ := h
  refine hsame (.inr ?_)
  rw [isPinFor_eq hd] at hpin
  unfold isPinOf at hpin
  split at hpin <;> first | exact Nat.one_lt_two | cases hpin

theorem tightAt (htight : r'.TightAt settings v) : r.TightAt settings v := by
  obtain ⟨-, -, d, d', hd, hd', hsub, -⟩ := h
  rw [tightAt_iff hd'] at htight
  obtain ⟨term, hterm, htrue⟩ := Dnf.eval_eq_true.mp htight
  exact (tightAt_iff hd).mpr (Dnf.eval_eq_true.mpr ⟨term, hsub.subset hterm, htrue⟩)

theorem subset_openVars : r'.openVars ⊆ r.openVars := by
  intro n hn
  obtain ⟨hused, hopen⟩ := mem_openVars.mp hn
  obtain ⟨kind, hu⟩ := mem_used.mp hused
  obtain ⟨c, hc, hu⟩ := List.mem_flatMap.mp hu
  have hused' : n ∈ r.used :=
    mem_used.mpr ⟨kind, List.mem_flatMap.mpr ⟨c, h.subset_clauses hc, hu⟩⟩
  refine mem_openVars.mpr ⟨hused', Bool.eq_false_iff.mpr fun hpin => ?_⟩
  rw [h.eq_of_isPinFor hpin, hpin] at hopen
  cases hopen

end Rule.IsTrimmed

/-! ### Terms that are alive -/

section Alive

variable {settings : Settings Rat} {rules rules' : List (Rule Rat)} {r r' : Rule Rat}
  {term : Term Rat}

/-- Some admissible valuation satisfies the term, with a margin on strict clauses. -/
def Alive (settings : Settings Rat) (rules : List (Rule Rat)) (term : Term Rat) : Prop :=
  ∃ v, Admissible settings rules v ∧
    ∀ c ∈ term, c.eval (.margin settings.epsilon.value) v = true

/-- All terms of the rule are alive, if it has several. -/
def Rule.Thrives (settings : Settings Rat) (rules : List (Rule Rat)) (r : Rule Rat) : Prop :=
  ∀ d, r.dnf = .ok d → 2 ≤ d.length → ∀ term ∈ d, Alive settings rules term

theorem Alive.mono (h : Alive settings rules term)
    (hrules : ∀ v, Admissible settings rules v → Admissible settings rules' v) :
    Alive settings rules' term :=
  h.imp fun v hv => ⟨hrules v hv.1, hv.2⟩

theorem Rule.Thrives.mono (h : r.Thrives settings rules)
    (hrules : ∀ v, Admissible settings rules v → Admissible settings rules' v) :
    r.Thrives settings rules' :=
  fun d hd hlength term hterm => (h d hd hlength term hterm).mono hrules

/-- Among rules that can hold together, a single term is alive as well, and there is one. -/
theorem Rule.Thrives.alive {d : Dnf Rat} (h : r.Thrives settings rules) (hr : r ∈ rules)
    (hd : r.dnf = .ok d) (hrules : Satisfiable settings rules) :
    d ≠ [] ∧ ∀ term ∈ d, Alive settings rules term := by
  obtain ⟨v, hv⟩ := hrules
  obtain ⟨term, hterm, htrue⟩ := Dnf.eval_eq_true.mp ((tightAt_iff hd).mp (hv.tight r hr))
  refine ⟨List.ne_nil_of_mem hterm, fun other hother => ?_⟩
  by_cases hlength : 2 ≤ d.length
  · exact h d hd hlength other hother
  · have hsingle : d.length = 1 := by
      have hpos := List.length_pos_of_mem hterm
      omega
    obtain ⟨only, rfl⟩ := List.length_eq_one_iff.mp hsingle
    obtain rfl := List.mem_singleton.mp hterm
    obtain rfl := List.mem_singleton.mp hother
    exact ⟨v, hv, htrue⟩

section Filter

variable {d : Dnf Rat} {keep : Term Rat → Bool} (hd' : r'.dnf = .ok (d.filter keep))
  (hkeep : ∀ term ∈ d, (keep term = true ↔ Alive settings rules term))

include hd' hkeep

/-- A rule of the set stays tight when its dead terms are dropped. -/
theorem Rule.tightAt_of_filter {v : Valuation} (hd : r.dnf = .ok d) (hr : r ∈ rules)
    (hv : Admissible settings rules v) : r'.TightAt settings v := by
  obtain ⟨term, hterm, htrue⟩ := Dnf.eval_eq_true.mp ((tightAt_iff hd).mp (hv.tight r hr))
  refine (tightAt_iff hd').mpr (Dnf.eval_eq_true.mpr ⟨term, ?_, htrue⟩)
  exact List.mem_filter.mpr ⟨hterm, (hkeep term hterm).mpr ⟨v, hv, htrue⟩⟩

theorem Rule.thrives_of_filter : r'.Thrives settings rules := by
  intro e he _ term hterm
  obtain rfl := Except.ok.inj (hd'.symm.trans he)
  obtain ⟨hmem, hkept⟩ := List.mem_filter.mp hterm
  exact (hkeep term hmem).mp hkept

end Filter

end Alive

/-! ### One rule -/

namespace Oracle

variable (o : Oracle Rat) {L : Lexicon} {s : RuleSet Rat} {r : Rule Rat} {d : Dnf Rat}
  {others : List (Rule Rat)} {term : Term Rat}

/-- Whether a term of a rule can hold with other rules; no when the query fails. -/
def admits (others : List (Rule Rat)) (name : String) (term : Term Rat) : Bool :=
  (Rule.ofDnf (.text ("~" ++ name)) [term] >>= fun r =>
    o.feasible (others ++ [r]) ("testing a term of '" ++ name ++ "'")).toOption.getD false

variable {o} (hsolver : o.solver.Exact o.settings)

include hsolver

private theorem exists_admits (hothers : ∀ x ∈ others, x.Fits L) (hd : d.IsReduced)
    (hfits : d.Within (Clause.Fits L)) (hterm : term ∈ d) (name : String) :
    (Rule.ofDnf (.text ("~" ++ name)) [term] >>= fun r =>
      o.feasible (others ++ [r]) ("testing a term of '" ++ name ++ "'")) =
        .ok (o.admits others name term) ∧
      (L.Apart → (o.admits others name term = true ↔ Alive o.settings others term)) := by
  have hwithin : Dnf.Within [term] (Clause.Fits L) := fun t ht =>
    hfits t (List.mem_singleton.mp ht ▸ hterm)
  obtain ⟨x, hx, -, hdnf, -⟩ := Rule.exists_ofDnf (Rule.not_blank_tilde name)
    fun t ht c hc => (hwithin t ht c hc).1.1
  rw [hd.reduce_sublist (List.singleton_sublist.mpr hterm)] at hdnf
  have hall : ∀ y ∈ others ++ [x], y.Fits L :=
    List.forall_mem_append.mpr ⟨hothers, List.forall_mem_singleton.mpr ⟨_, hdnf, hwithin⟩⟩
  have hverdict := feasible_eq hsolver hall ("testing a term of '" ++ name ++ "'")
  have hadmits : o.admits others name term =
      o.verdict (others ++ [x]) ("testing a term of '" ++ name ++ "'") := by
    rw [admits, hx, Outcome.ok_bind, hverdict]
    rfl
  refine ⟨by rw [hx, Outcome.ok_bind, hverdict, hadmits], fun hL => ?_⟩
  rw [hadmits, verdict_iff hsolver hL hall]
  refine exists_congr fun v => ?_
  rw [admissible_append, List.forall_mem_singleton, Rule.tightAt_iff hdnf]
  simp [Dnf.eval]

theorem livingTerms_eq (hothers : ∀ x ∈ others, x.Fits L) (hd : d.IsReduced)
    (hfits : d.Within (Clause.Fits L)) (name : String) :
    o.livingTerms others name d = .ok (d.filter (o.admits others name)) :=
  Outcome.filterM_eq_filter fun _ hterm => (exists_admits hsolver hothers hd hfits hterm name).1

/-- With the other rules of a set, a term can hold when it is alive. -/
theorem admits_iff (hL : L.Apart) (h : ∀ x ∈ s.rules, x.Fits L) (hr : r ∈ s.rules)
    (hd : r.dnf = .ok d) (hterm : term ∈ d) :
    o.admits (s.rules.filter (·.name != r.name)) r.name term = true ↔
      Alive o.settings s.rules term := by
  have hsubset : s.rules.filter (·.name != r.name) ⊆ s.rules := List.filter_sublist.subset
  rw [(exists_admits hsolver (fun x hx => h x (hsubset hx)) (Rule.isReduced hd)
    ((h r hr).within hd) hterm r.name).2 hL]
  refine exists_congr fun v => ⟨fun ⟨hv, htrue⟩ => ⟨⟨hv.inBox, fun x hx => ?_⟩, htrue⟩,
    fun ⟨hv, htrue⟩ => ⟨hv.mono hsubset, htrue⟩⟩
  -- the rule itself is tight because of the term
  by_cases hname : x.name = r.name
  · rw [RuleSet.eq_of_name_eq hx hr hname, Rule.tightAt_iff hd]
    exact Dnf.eval_eq_true.mpr ⟨term, hterm, htrue⟩
  · exact hv.tight x (List.mem_filter.mpr ⟨hx, by simpa using hname⟩)

/-- Dropping the dead terms of one rule. -/
theorem exists_dropTerms (h : ∀ x ∈ s.rules, x.Fits L) (hr : r ∈ s.rules) :
    ∃ r' t, o.dropTerms s r.name = .ok t ∧ r.IsTrimmed r' ∧
      t.rules = s.rules.map (fun x => if x.name == r.name then r' else x) ∧
      (L.Apart → (∀ v, Admissible o.settings s.rules v → r'.TightAt o.settings v) ∧
        r'.Thrives o.settings s.rules ∧ (r.Thrives o.settings s.rules → r' = r)) := by
  obtain ⟨d, hd, hfits⟩ := id (h r hr)
  have hsame := RuleSet.rules_eq_map hr
  rw [dropTerms, RuleSet.item_eq hr, Outcome.ok_bind, hd, Outcome.ok_bind]
  by_cases hlength : d.length < 2
  · -- no term is tested: a single one that is dead makes the whole set infeasible
    refine ⟨r, s, by rw [if_pos hlength]; rfl, .refl hd, hsame, fun _ =>
      ⟨fun v hv => hv.tight r hr, ?_, fun _ => rfl⟩⟩
    intro e he htwo
    obtain rfl := Except.ok.inj (hd.symm.trans he)
    omega
  let others := s.rules.filter (·.name != r.name)
  let kept := d.filter (o.admits others r.name)
  have hliving : o.livingTerms others r.name d = .ok kept := livingTerms_eq hsolver
    (fun x hx => h x (List.mem_filter.mp hx).1) (Rule.isReduced hd) hfits r.name
  have halive (hL : L.Apart) : ∀ term ∈ d,
      (o.admits others r.name term = true ↔ Alive o.settings s.rules term) :=
    fun term hterm => admits_iff hsolver hL h hr hd hterm
  have hsub : kept.Sublist d := List.filter_sublist
  rw [if_neg hlength, hliving, Outcome.ok_bind]
  by_cases hshorter : kept.length < d.length
  · obtain ⟨r', hr', hdnf, htrimmed⟩ := Rule.IsTrimmed.exists_of_sublist hd
      (fun term hterm c hc => (hfits term hterm c hc).1.1) hsub hshorter hlength
    obtain ⟨t, ht, hrules, -⟩ := RuleSet.exists_replace hr htrimmed.name
    refine ⟨r', t, by rw [if_pos hshorter, hr', Outcome.ok_bind, ht], htrimmed, hrules,
      fun hL => ⟨fun v => Rule.tightAt_of_filter hdnf (halive hL) hd hr,
        Rule.thrives_of_filter hdnf (halive hL), fun hthrives => ?_⟩⟩
    -- fewer terms are kept, which cannot be when all are alive
    have hall : kept = d := List.filter_eq_self.mpr fun term hterm =>
      (halive hL term hterm).mpr (hthrives d hd (by omega) term hterm)
    rw [hall] at hshorter
    omega
  · have hall : kept = d := hsub.eq_of_length_le (by omega)
    have hkept : r.dnf = .ok kept := hd.trans (congrArg _ hall.symm)
    exact ⟨r, s, by rw [if_neg hshorter]; rfl, .refl hd, hsame, fun hL =>
      ⟨fun v hv => hv.tight r hr, Rule.thrives_of_filter hkept (halive hL), fun _ => rfl⟩⟩

end Oracle

/-! ### All rules -/

/-- Every rule has become one with some of its terms. -/
def AreTrimmed (rules rules' : List (Rule Rat)) : Prop :=
  ∃ trim : Rule Rat → Rule Rat, rules' = rules.map trim ∧ ∀ r ∈ rules, r.IsTrimmed (trim r)

namespace AreTrimmed

variable {rules rules' rules'' : List (Rule Rat)} {L : Lexicon}

theorem refl (h : ∀ r ∈ rules, r.Fits L) : AreTrimmed rules rules := by
  refine ⟨id, (List.map_id rules).symm, fun r hr => ?_⟩
  obtain ⟨d, hd, -⟩ := h r hr
  exact .refl hd

theorem trans (h : AreTrimmed rules rules') (h' : AreTrimmed rules' rules'') :
    AreTrimmed rules rules'' := by
  obtain ⟨trim, rfl, htrim⟩ := h
  obtain ⟨trim', rfl, htrim'⟩ := h'
  exact ⟨trim' ∘ trim, List.map_map, fun r hr =>
    (htrim r hr).trans (htrim' (trim r) (List.mem_map_of_mem hr))⟩

variable (h : AreTrimmed rules rules')

include h

theorem exists_of_mem {r' : Rule Rat} (hr' : r' ∈ rules') : ∃ r ∈ rules, r.IsTrimmed r' := by
  obtain ⟨trim, rfl, htrim⟩ := h
  obtain ⟨r, hr, rfl⟩ := List.mem_map.mp hr'
  exact ⟨r, hr, htrim r hr⟩

theorem names_eq : rules'.map (·.name) = rules.map (·.name) := by
  obtain ⟨trim, rfl, htrim⟩ := h
  rw [List.map_map]
  exact List.map_congr_left fun r hr => (htrim r hr).name

theorem fits (hrules : ∀ r ∈ rules, r.Fits L) : ∀ r ∈ rules', r.Fits L := fun r' hr' => by
  obtain ⟨r, hr, htrimmed⟩ := h.exists_of_mem hr'
  exact htrimmed.fits (hrules r hr)

end AreTrimmed

namespace Oracle

variable {o : Oracle Rat} {L : Lexicon} {s t : RuleSet Rat}

/-- A set after the dead terms of the named rules were dropped. -/
structure Trims (o : Oracle Rat) (s t : RuleSet Rat) (names : List String) : Prop where
  admissible_iff : ∀ v, Admissible o.settings t.rules v ↔ Admissible o.settings s.rules v
  thrives : ∀ r ∈ t.rules, r.name ∈ names → r.Thrives o.settings t.rules
  eq : (∀ r ∈ s.rules, r.Thrives o.settings s.rules) → t = s

/-- Dropping the dead terms of one more rule. -/
private theorem Trims.step {names : List String} {r r' : Rule Rat} {t' : RuleSet Rat}
    (htrims : o.Trims s t names) (hr : r ∈ t.rules)
    (hrules : t'.rules = t.rules.map fun x => if x.name == r.name then r' else x)
    (htrimmed : AreTrimmed t.rules t'.rules)
    (htight : ∀ v, Admissible o.settings t.rules v → r'.TightAt o.settings v)
    (hthrives : r'.Thrives o.settings t.rules)
    (hsame : r.Thrives o.settings t.rules → r' = r) : o.Trims s t' (names ++ [r.name]) := by
  have hto : ∀ v, Admissible o.settings t.rules v → Admissible o.settings t'.rules v := by
    intro v hv
    refine ⟨hv.inBox, ?_⟩
    rw [hrules]
    refine List.forall_mem_map.mpr fun x hx => ?_
    split
    · exact htight v hv
    · exact hv.tight x hx
  have hfrom : ∀ v, Admissible o.settings t'.rules v → Admissible o.settings t.rules v := by
    intro v hv
    obtain ⟨trim, heq, htrim⟩ := htrimmed
    rw [heq] at hv
    exact ⟨hv.inBox, fun x hx => (htrim x hx).tightAt (hv.tight _ (List.mem_map_of_mem hx))⟩
  refine ⟨fun v => ⟨fun hv => (htrims.admissible_iff v).mp (hfrom v hv),
    fun hv => hto v ((htrims.admissible_iff v).mpr hv)⟩, ?_, fun hall => ?_⟩
  · rw [hrules]
    refine List.forall_mem_map.mpr fun x hx hmem => ?_
    rw [← hrules]
    split at hmem
    · next hx => rw [if_pos hx]; exact hthrives.mono hto
    · next hne =>
      rw [if_neg hne]
      refine (htrims.thrives x hx ?_).mono hto
      exact (List.mem_append.mp hmem).resolve_right fun h => hne (by simpa using h)
  · obtain rfl := htrims.eq hall
    refine RuleSet.eq_of_rules_eq ?_
    rw [hrules, hsame (hall r hr)]
    refine (List.map_congr_left fun x hx => ?_).trans (List.map_id _)
    split
    · next h => exact RuleSet.eq_of_name_eq hr hx (eq_of_beq h).symm
    · rfl

/-- A feasible set loses the dead terms of its longer rules, and keeps its admissible valuations. -/
theorem exists_simplifyConditional (hsolver : o.solver.Exact o.settings)
    (h : ∀ r ∈ s.rules, r.Fits L) : ∃ t, (o.simplifyConditional s).outcome = .ok t ∧
      AreTrimmed s.rules t.rules ∧ (L.Apart → Satisfiable o.settings s.rules →
        o.Trims s t s.names) ∧ (L.Apart → ¬ Satisfiable o.settings s.rules → t = s) := by
  rw [simplifyConditional, Reported.outcome_bind, Reported.outcome_monadLift,
    isFeasible_eq hsolver h, Outcome.ok_bind]
  cases hverdict : o.verdict s.rules "checking feasibility" with
  | false =>
    refine ⟨s, rfl, .refl h, fun hL hsat => ?_, fun _ _ => rfl⟩
    exact absurd hsat ((verdict_eq_false_iff hsolver hL h _).mp hverdict)
  | true =>
    obtain ⟨t, ht, htrimmed, htrims⟩ : ∃ t, s.names.foldlM o.dropTerms s = .ok t ∧
        AreTrimmed s.rules t.rules ∧ (L.Apart → o.Trims s t s.names) := by
      refine Outcome.exists_foldlM (fun seen (t : RuleSet Rat) => AreTrimmed s.rules t.rules ∧
        (L.Apart → o.Trims s t seen)) ⟨.refl h, fun _ => ⟨fun _ => Iff.rfl,
          fun _ _ hmem => (by cases hmem), fun _ => rfl⟩⟩ ?_
      rintro seen name t hseen ⟨htrimmed, htrims⟩
      have hname : name ∈ t.rules.map (·.name) := by
        rw [htrimmed.names_eq]
        exact hseen.subset (List.mem_append_right _ (List.mem_singleton_self name))
      obtain ⟨r, hr, rfl⟩ := List.mem_map.mp hname
      obtain ⟨r', t', ht', hr', hrules, hL⟩ :=
        exists_dropTerms hsolver (htrimmed.fits h) hr
      have hstep : AreTrimmed t.rules t'.rules := by
        refine ⟨_, hrules, fun x hx => ?_⟩
        split
        · next hx' => rwa [RuleSet.eq_of_name_eq hx hr (eq_of_beq hx')]
        · obtain ⟨d, hd, -⟩ := htrimmed.fits h x hx
          exact .refl hd
      exact ⟨t', ht', htrimmed.trans hstep, fun hapart => (htrims hapart).step hr hrules hstep
        (hL hapart).1 (hL hapart).2.1 (hL hapart).2.2⟩
    refine ⟨t, ht, htrimmed, fun hL _ => htrims hL, fun hL hunsat => ?_⟩
    exact absurd ((verdict_iff hsolver hL h _).mp hverdict) hunsat

/-- A feasible set is simplified without a warning. -/
theorem simplifyConditional_eq_ok (h : o.isFeasible s = .ok true)
    (ht : (o.simplifyConditional s).outcome = .ok t) : o.simplifyConditional s = ⟨.ok t, []⟩ := by
  have heq : o.simplifyConditional s = Reported.lift (s.names.foldlM o.dropTerms s) := by
    change (Reported.lift (o.isFeasible s) >>= _) = _
    rw [h]
    rfl
  rw [heq] at ht ⊢
  exact Reported.lift_eq_ok ht

end Oracle

/-- **A feasible set is left with the terms that are alive.** The rules keep their names and their
order and some of their terms, at least one each, and the same valuations are admissible. Every term
that is left is alive, and dropping terms again changes nothing. -/
theorem Oracle.exists_simplifyConditional_alive (o : Oracle Rat) (s : RuleSet Rat)
    (hrules : KindConsistent s.rules)
    (hnames : ∀ p, Program.ofRules s.rules o.settings = .ok p → (p.vars.map (·.name)).Nodup)
    (hsolver : o.solver.Exact o.settings) (hfeasible : o.isFeasible s = .ok true) :
    ∃ t, o.simplifyConditional s = ⟨.ok t, []⟩ ∧ t.names = s.names ∧ AreTrimmed s.rules t.rules ∧
      (∀ v, Admissible o.settings t.rules v ↔ Admissible o.settings s.rules v) ∧
      (∀ r ∈ t.rules, r.isContradiction = .ok false ∧
        ∃ d, r.dnf = .ok d ∧ ∀ term ∈ d, Alive o.settings s.rules term) ∧
      o.simplifyConditional t = ⟨.ok t, []⟩ := by
  obtain ⟨L, hL, hfits, -⟩ := hrules.exists_apart hnames
  have hsat : Satisfiable o.settings s.rules := (isFeasible_iff hsolver hL hfits).mp hfeasible
  obtain ⟨t, ht, htrimmed, htrims, -⟩ := exists_simplifyConditional hsolver hfits
  obtain ⟨hadmissible, hthrives, -⟩ := htrims hL hsat
  have htFits : ∀ r ∈ t.rules, r.Fits L := htrimmed.fits hfits
  have htSat : Satisfiable o.settings t.rules := hsat.imp fun v => (hadmissible v).mpr
  have htNames : t.names = s.names := htrimmed.names_eq
  have htThrives : ∀ r ∈ t.rules, r.Thrives o.settings t.rules := fun r hr =>
    hthrives r hr (htNames ▸ List.mem_map_of_mem hr)
  refine ⟨t, simplifyConditional_eq_ok hfeasible ht, htNames, htrimmed, hadmissible,
    fun r hr => ?_, ?_⟩
  · obtain ⟨d, hd, -⟩ := htFits r hr
    obtain ⟨hne, halive⟩ := (htThrives r hr).alive hr hd htSat
    refine ⟨?_, d, hd, fun term hterm => (halive term hterm).mono fun v => (hadmissible v).mp⟩
    rw [Rule.isContradiction, hd]
    exact congrArg Except.ok (by simpa using hne)
  · -- all rules thrive already, so the second time none of them is changed
    obtain ⟨u, hu, -, hagain, -⟩ := exists_simplifyConditional hsolver htFits
    obtain rfl := (hagain hL htSat).eq htThrives
    exact simplifyConditional_eq_ok ((isFeasible_iff hsolver hL htFits).mpr htSat) hu

/-- With a lower bound beside it, a choice between two bounds loses one of them. -/
theorem Oracle.exists_simplifyConditional_alive_choice :
    let floor : Rule Rat := ⟨"floor", .atom (.linear (.canonical [(⟨"x", by decide⟩, 1)] .ge 3)),
      none, by decide +kernel, by simp, none⟩
    let choice : Rule Rat := ⟨"choice",
      .or [.atom (.linear (.canonical [(⟨"x", by decide⟩, 1)] .le 1)),
        .atom (.linear (.canonical [(⟨"x", by decide⟩, 1)] .ge 5))],
      none, by decide +kernel, by simp, none⟩
    let s : RuleSet Rat := ⟨[choice, floor], by decide⟩
    let solver := Solver.hinted [[("num[x]", 5)],
      [("num[x]", 5), ("sel[0:choice#0]", 0), ("sel[0:choice#1]", 1)]]
    KindConsistent s.rules ∧ ∃ settings, Settings.default = .ok settings ∧
      (∃ p, Program.ofRules s.rules settings = .ok p ∧ (p.vars.map (·.name)).Nodup) ∧
      solver.Exact settings ∧ Oracle.isFeasible ⟨solver, settings⟩ s = .ok true ∧
      ∃ t, Oracle.simplifyConditional ⟨solver, settings⟩ s = ⟨.ok t, []⟩ ∧
        t.rules.map (fun r => r.dnf.toOption.map List.length) = [some 1, some 1] ∧
        t.names = ["choice", "floor"] ∧
        Oracle.simplifyConditional ⟨solver, settings⟩ t = ⟨.ok t, []⟩ := by
  intro floor choice s solver
  have hkinds : KindConsistent s.rules := by decide +kernel
  have hsome : (Settings.default (K := Rat)).toOption.any (fun settings =>
      decide ((Oracle.isFeasible ⟨solver, settings⟩ s).toOption = some true) &&
        ((Program.ofRules s.rules settings).toOption.any fun p =>
          decide (p.vars.map (·.name)).Nodup) &&
        (Oracle.simplifyConditional ⟨solver, settings⟩ s).outcome.toOption.any fun t =>
          decide (t.rules.map (fun r => r.dnf.toOption.map List.length) =
            [some 1, some 1])) = true := by
    decide +kernel
  obtain ⟨settings, hsettings, hall⟩ := Outcome.exists_of_any_toOption hsome
  rw [Bool.and_eq_true, Bool.and_eq_true, decide_eq_true_eq] at hall
  obtain ⟨⟨hfeasible, hprogram⟩, hsimplified⟩ := hall
  have hfeasible := Outcome.eq_ok_of_toOption hfeasible
  obtain ⟨p, hp, hnames⟩ := Outcome.exists_of_any_toOption hprogram
  obtain ⟨u, hu, hlengths⟩ := Outcome.exists_of_any_toOption hsimplified
  obtain ⟨t, ht, htNames, -, -, -, hagain⟩ :=
    Oracle.exists_simplifyConditional_alive ⟨solver, settings⟩ s hkinds (fun q hq => by
      obtain rfl := Except.ok.inj (hp.symm.trans hq)
      exact of_decide_eq_true hnames) (Solver.hinted_exact _ settings) hfeasible
  rw [ht] at hu
  obtain rfl := Except.ok.inj hu
  exact ⟨hkinds, settings, hsettings, ⟨p, hp, of_decide_eq_true hnames⟩,
    Solver.hinted_exact _ settings, hfeasible, t, ht, of_decide_eq_true hlengths, htNames, hagain⟩

end RuleAudit
