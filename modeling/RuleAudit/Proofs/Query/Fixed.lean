import RuleAudit.Proofs.Query.Verdict
import RuleAudit.Proofs.Rule.Pin

/-!
# Fixed variables

An exact solver finds a valuation for the rules, and a variable is reported with the value that it
has there, a number rounded to nine places, when the rules exclude that it keeps a distance from
this value (`Oracle.exists_fixed`). Which values are reported can hang on the valuation that is
found.
-/

namespace RuleAudit

theorem Clause.ne_empty_of_mem_uses {c : Clause Rat} {u : String × VarKind} (hu : u ∈ c.uses) :
    u.1 ≠ "" := by
  cases c with
  | linear c =>
    obtain ⟨n, hn, rfl⟩ := List.mem_map.mp hu
    obtain ⟨t, ht, rfl⟩ := List.mem_map.mp hn
    exact c.named t ht
  | membership c =>
    obtain rfl := List.mem_singleton.mp hu
    exact c.named
  | foreign d => cases hu

/-- The value to test for a label is the label. -/
theorem Valuation.candidate?_categorical (v : Valuation) (n : String) :
    (v.reading (n, .categorical)).candidate? = (v.label n).map .label := by
  rw [reading]
  cases v.label n with
  | none => rfl
  | some l => rfl

section Uses

variable {rules : List (Rule Rat)} {L : Lexicon} {n : String} {kind : VarKind} {v : Valuation}
  {value : FixedValue Rat}

theorem ne_empty_of_mem_usesIn (h : (n, kind) ∈ usesIn rules) : n ≠ "" := by
  obtain ⟨c, -, hu⟩ := List.mem_flatMap.mp h
  exact Clause.ne_empty_of_mem_uses hu

/-- Variables are used with the kinds of the lexicon. -/
theorem kind_of_mem_usesIn (hfits : ∀ r ∈ rules, r.Fits L) (h : (n, kind) ∈ usesIn rules) :
    L.kinds n = kind := by
  have hagrees : Agrees L.kinds (usesIn rules) := agrees_of_within fun r hr => by
    obtain ⟨d, hd, hwithin⟩ := hfits r hr
    exact ⟨d, hd, fun term hterm c hc => (hwithin term hterm c hc).1⟩
  exact hagrees (n, kind) h

/-- What is read off a valuation suits the lexicon, if the labels are mentioned. -/
theorem FixedValue.suits_of_candidate? (hfits : ∀ r ∈ rules, r.Fits L)
    (hmentioned : ∀ n l, v.label n = some l → Mentioned rules n l)
    (hu : (n, kind) ∈ usesIn rules) (hvalue : (v.reading (n, kind)).candidate? = some value) :
    value.Suits L n := by
  have hkind := kind_of_mem_usesIn hfits hu
  cases kind with
  | numeric =>
    obtain rfl := Option.some.inj hvalue
    exact ⟨hkind, fun l hl => by cases hl⟩
  | categorical =>
    rw [v.candidate?_categorical] at hvalue
    obtain ⟨k, hlabel, rfl⟩ := Option.map_eq_some_iff.mp hvalue
    refine ⟨hkind, fun l hl => ?_⟩
    obtain rfl := FixedValue.label.inj hl
    exact Mentioned.of_fits hfits (hmentioned n _ hlabel)

end Uses

namespace Oracle

variable (o : Oracle Rat) {L : Lexicon} {s : RuleSet Rat} {n : String} {value : FixedValue Rat}

/-- Whether the rules exclude that a variable is away from a value; no when the query fails. -/
def isFixed (s : RuleSet Rat) (n : String) (value : FixedValue Rat) : Bool :=
  (value.probes o.settings.epsilon.value n >>=
    o.excludesAll s ("probing '" ++ n ++ "'")).toOption.getD false

variable {o} (hsolver : o.solver.Exact o.settings) (h : ∀ r ∈ s.rules, r.Fits L)

include hsolver h

private theorem exists_excludesAll (hn : n ≠ "") (hvalue : value.Suits L n) :
    ∃ probes b, value.probes o.settings.epsilon.value n = .ok probes ∧
      o.excludesAll s ("probing '" ++ n ++ "'") probes = .ok b ∧ o.isFixed s n value = b ∧
      (L.Apart → (b = true ↔
        ∀ w, Admissible o.settings s.rules w → ¬ value.IsAway o.settings.epsilon.value w n)) := by
  obtain ⟨probes, hprobes, hfits, htight⟩ :=
    FixedValue.exists_probes (n := ⟨n, hn⟩) hvalue o.settings.epsilon.value
  have hall (p : Rule Rat) (hp : p ∈ probes) : ∀ r ∈ s.rules ++ [p], r.Fits L :=
    List.forall_mem_append.mpr ⟨h, List.forall_mem_singleton.mpr (hfits p hp)⟩
  let excluded (p : Rule Rat) : Bool := !o.verdict (s.rules ++ [p]) ("probing '" ++ n ++ "'")
  have hexcludes : o.excludesAll s ("probing '" ++ n ++ "'") probes =
      .ok (probes.all excluded) := by
    refine Outcome.allM_eq_all fun p hp => ?_
    rw [feasible_eq hsolver (hall p hp)]
    rfl
  refine ⟨probes, probes.all excluded, hprobes, hexcludes, ?_, fun hL => ?_⟩
  · rw [isFixed, hprobes, Outcome.ok_bind, hexcludes]
    rfl
  · -- the probes together say that the variable keeps its distance, so each is excluded alone
    have hexcluded (p : Rule Rat) (hp : p ∈ probes) : excluded p = true ↔
        ∀ w, Admissible o.settings s.rules w → ¬ p.TightAt o.settings w := by
      rw [Bool.not_eq_true', verdict_eq_false_iff hsolver hL (hall p hp)]
      simp [Satisfiable, admissible_append]
    rw [List.all_eq_true]
    constructor
    · intro hprobe w hw haway
      obtain ⟨p, hp, hpTight⟩ := (htight o.settings w).mpr haway
      exact (hexcluded p hp).mp (hprobe p hp) w hw hpTight
    · exact fun haway p hp => (hexcluded p hp).mpr fun w hw hpTight =>
        haway w hw ((htight o.settings w).mp ⟨p, hp, hpTight⟩)

/-- A variable has a value wherever the rules hold, up to the distance of the probes. -/
theorem isFixed_iff (hL : L.Apart) (hn : n ≠ "") (hvalue : value.Suits L n) :
    o.isFixed s n value = true ↔
      ∀ w, Admissible o.settings s.rules w → ¬ value.IsAway o.settings.epsilon.value w n := by
  obtain ⟨probes, b, -, -, rfl, hiff⟩ := exists_excludesAll hsolver h hn hvalue
  exact hiff hL

theorem fixedValue?_eq {reading : Reading Rat} (hn : n ≠ "")
    (hreading : ∀ value, reading.candidate? = some value → value.Suits L n) :
    o.fixedValue? s n reading = .ok (reading.candidate?.filter (o.isFixed s n)) := by
  rw [fixedValue?]
  cases hvalue : reading.candidate? with
  | none => rfl
  | some value =>
    obtain ⟨probes, b, hprobes, hexcludes, hb, -⟩ :=
      exists_excludesAll hsolver h hn (hreading value hvalue)
    dsimp only
    rw [hprobes, Outcome.ok_bind, hexcludes, Option.filter_some, hb]
    rfl

end Oracle

/-! ### All fixed variables -/

/-- Entries that are kept under their names keep them different. -/
private theorem nodup_filterMap {α β : Type} {l : List (String × α)}
    {f : String × α → Option (String × β)} (hf : ∀ a b, f a = some b → b.1 = a.1)
    (hl : (l.map (·.1)).Nodup) : ((l.filterMap f).map (·.1)).Nodup := by
  -- dropped entries leave the names of the others in order, which is all the induction needs
  refine hl.sublist ?_
  clear hl
  induction l with
  | nil => exact .slnil
  | cons a l ih =>
    cases ha : f a with
    | none =>
      rw [List.filterMap_cons_none ha]
      exact ih.cons _
    | some b =>
      rw [List.filterMap_cons_some ha, List.map_cons, List.map_cons, hf a b ha]
      exact ih.cons_cons _

/-- A valuation of the rules, and the variables that are fixed to their values there. -/
structure Oracle.Fixes (o : Oracle Rat) (s : RuleSet Rat) (v : Valuation)
    (fixed : List (String × FixedValue Rat)) : Prop where
  admissible : Admissible o.settings s.rules v
  mentioned : ∀ n l, v.label n = some l → Mentioned s.rules n l
  nodup : (fixed.map (·.1)).Nodup
  mem_iff : ∀ n value, (n, value) ∈ fixed ↔ ∃ kind, (n, kind) ∈ usesIn s.rules ∧
    (v.reading (n, kind)).candidate? = some value ∧ o.isFixed s n value = true

/-- The entry of a variable, when it is fixed to its value at a valuation. -/
def Oracle.fixedEntry? (o : Oracle Rat) (s : RuleSet Rat) (v : Valuation) (u : String × VarKind) :
    Option (String × FixedValue Rat) :=
  ((v.reading u).candidate?.filter (o.isFixed s u.1)).map fun value => (u.1, value)

/-- The entries of all variables in use. -/
theorem Oracle.fixes_of_tabulates {o : Oracle Rat} {s : RuleSet Rat} {v : Valuation}
    {table : List (String × VarKind)} (htab : Tabulates table (usesIn s.rules))
    (hv : Admissible o.settings s.rules v)
    (hmentioned : ∀ n l, v.label n = some l → Mentioned s.rules n l) :
    o.Fixes s v (table.filterMap (o.fixedEntry? s v)) := by
  refine ⟨hv, hmentioned, nodup_filterMap (fun u p hp => ?_) htab.nodup, fun n value => ?_⟩
  · obtain ⟨value, -, rfl⟩ := Option.map_eq_some_iff.mp hp
    rfl
  rw [List.mem_filterMap]
  constructor
  · rintro ⟨u, hu, hvalue⟩
    obtain ⟨x, hx, heq⟩ := Option.map_eq_some_iff.mp hvalue
    cases heq
    obtain ⟨hcandidate, hfixed⟩ := Option.filter_eq_some_iff.mp hx
    exact ⟨u.2, (htab.mem_iff u).mp hu, hcandidate, hfixed⟩
  · rintro ⟨kind, hu, hcandidate, hfixed⟩
    refine ⟨(n, kind), (htab.mem_iff _).mpr hu, Option.map_eq_some_iff.mpr ⟨value, ?_, rfl⟩⟩
    exact Option.filter_eq_some_iff.mpr ⟨hcandidate, hfixed⟩

namespace Oracle.Fixes

variable {o : Oracle Rat} {s : RuleSet Rat} {v : Valuation} {L : Lexicon}
  {fixed : List (String × FixedValue Rat)} (hfixes : o.Fixes s v fixed)
  (h : ∀ r ∈ s.rules, r.Fits L) {p : String × FixedValue Rat} (hp : p ∈ fixed)

include hfixes h hp

/-- Fixed variables are in use, with the kind of their values. -/
theorem suits : p.2.Suits L p.1 ∧ (p.1, p.2.kind) ∈ usesIn s.rules := by
  obtain ⟨kind, hu, hvalue, -⟩ := (hfixes.mem_iff p.1 p.2).mp hp
  have hsuits := FixedValue.suits_of_candidate? h hfixes.mentioned hu hvalue
  have hkind : p.2.kind = kind := hsuits.1.symm.trans (kind_of_mem_usesIn h hu)
  exact ⟨hsuits, hkind ▸ hu⟩

/-- The valuation has the reported values, unless rounding moved them. -/
theorem isAt (hround : ∀ x, p.2 = .number x → v.number p.1 = x) : p.2.IsAt v p.1 := by
  obtain ⟨kind, hu, hvalue, -⟩ := (hfixes.mem_iff p.1 p.2).mp hp
  obtain ⟨n, value⟩ := p
  cases value with
  | number x => exact hround x rfl
  | label l =>
    have hkind : kind = .categorical :=
      (kind_of_mem_usesIn h hu).symm.trans (hfixes.suits h hp).1.1
    subst hkind
    rw [v.candidate?_categorical] at hvalue
    obtain ⟨k, hlabel, hk⟩ := Option.map_eq_some_iff.mp hvalue
    obtain rfl := FixedValue.label.inj hk
    exact hlabel

end Oracle.Fixes

/-- No variable of an infeasible set counts as fixed; those of a feasible one are fixed to values of
one valuation. -/
theorem Oracle.exists_fixed {o : Oracle Rat} {s : RuleSet Rat} {L : Lexicon}
    (hsolver : o.solver.Exact o.settings) (h : ∀ r ∈ s.rules, r.Fits L) :
    ∃ f fixed, o.check s = .ok f ∧ (o.fixed s).outcome = .ok fixed ∧
      (f.feasible = false ∧ fixed = [] ∨
        f.feasible = true ∧ ∃ v, o.Fixes s v fixed ∧ ∀ u ∈ usesIn s.rules,
          Assoc.get? u.1 f.assignment = some (v.reading u)) := by
  obtain ⟨f, hf, hanswers⟩ := o.exists_answer (kindConsistent_of_fits h) (fun p _ => hsolver p)
    "checking feasibility"
  have hcheck : o.check s = .ok f := hf
  rw [fixed, Reported.outcome_bind, Reported.outcome_monadLift, hcheck, Outcome.ok_bind]
  cases hfeasible : f.feasible with
  | false => exact ⟨f, [], rfl, rfl, .inl ⟨hfeasible, rfl⟩⟩
  | true =>
    obtain ⟨v, hv, hmentioned, hread⟩ := hanswers.sound hfeasible
    obtain ⟨table, htable, htab⟩ := RuleSet.exists_kinds (kindConsistent_of_fits h)
    refine ⟨f, table.filterMap (o.fixedEntry? s v), rfl, ?_,
      .inr ⟨hfeasible, v, fixes_of_tabulates htab hv hmentioned, hread⟩⟩
    change (s.kinds >>= fun kinds =>
      kinds.mapM _ >>= fun values => pure (values.filterMap id)) = _
    rw [htable, Outcome.ok_bind]
    refine Outcome.bind_eq_ok.mpr
      ⟨table.map (o.fixedEntry? s v), ?_, by rw [List.filterMap_map]; rfl⟩
    refine Outcome.mapM_eq_map fun ⟨n, kind⟩ hu => ?_
    have huse := (htab.mem_iff _).mp hu
    have heq := fixedValue?_eq hsolver h (ne_empty_of_mem_usesIn huse)
      fun value hvalue => FixedValue.suits_of_candidate? h hmentioned huse hvalue
    dsimp only
    rw [hread _ huse]
    dsimp only
    rw [heq]
    rfl

namespace Oracle

variable {o : Oracle Rat} {s : RuleSet Rat} {L : Lexicon} (hsolver : o.solver.Exact o.settings)
  (h : ∀ r ∈ s.rules, r.Fits L)

include hsolver h

/-- The variables that are fixed are in use, with the kinds of their values. -/
theorem exists_fixed_suits : ∃ fixed, (o.fixed s).outcome = .ok fixed ∧
    (fixed.map (·.1)).Nodup ∧
    (∀ p ∈ fixed, p.2.Suits L p.1 ∧ (p.1, p.2.kind) ∈ usesIn s.rules) ∧
    (fixed ≠ [] → ∃ v, o.Fixes s v fixed) := by
  obtain ⟨f, fixed, -, hfixed, ⟨-, rfl⟩ | ⟨-, v, hfixes, -⟩⟩ := exists_fixed hsolver h
  · exact ⟨[], hfixed, List.nodup_nil, List.forall_mem_nil _, fun hne => absurd rfl hne⟩
  · exact ⟨fixed, hfixed, hfixes.nodup, fun p hp => hfixes.suits h hp, fun _ => ⟨v, hfixes⟩⟩

/-- The variables of a feasible set are fixed to the values that were found for them. -/
theorem exists_fixes (hfeasible : o.isFeasible s = .ok true) :
    ∃ f fixed v, o.check s = .ok f ∧ (o.fixed s).outcome = .ok fixed ∧ o.Fixes s v fixed ∧
      ∀ u ∈ usesIn s.rules, Assoc.get? u.1 f.assignment = some (v.reading u) := by
  obtain ⟨f, fixed, hcheck, hfixed, hcases⟩ := exists_fixed hsolver h
  rw [isFeasible, hcheck] at hfeasible
  have htrue : f.feasible = true := Except.ok.inj hfeasible
  obtain ⟨hfalse, -⟩ | ⟨-, v, hfixes, hread⟩ := hcases
  · exact absurd (hfalse.symm.trans htrue) Bool.false_ne_true
  · exact ⟨f, fixed, v, hcheck, hfixed, hfixes, hread⟩

end Oracle

end RuleAudit
