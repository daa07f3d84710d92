import RuleAudit.Proofs.Dnf.Override
import RuleAudit.Proofs.Rule.Pin

/-!
# Sets with values plugged in

Binding variables of a set plugs their values into its rules and puts a pin for each value at the
end, in place of the rules that are named like these pins (`RuleSet.substitute_eq_ok_iff`). What
holds of the result is what holds of the other rules and has the values, so binding the same
variables once more changes nothing (`RuleSet.substitute_binds`).
-/

namespace RuleAudit

open Outcome

/-! ### Values that an assignment gives -/

/-- The assignment gives a variable the value of a datum: the same number, or the same label. Null
has no label. -/
def Assignment.Binds (a : Assignment Rat) (n : String) (kind : VarKind) (x : Datum Rat) : Prop :=
  ∃ y, Assoc.get? n a = some y ∧ match kind with
    | .numeric => ∃ q, y.toNumber = .ok q ∧ x.toNumber = .ok q
    | .categorical => y.label? = some x.label

namespace Rule

variable {p : Rule Rat} {a : Assignment Rat} {n : VarName} {value : FixedValue Rat}

/-- A clause about one variable holds when the number of the variable compares so. -/
theorem holds_single {r : Relation} {q : Rat} :
    (Clause.linear (.canonical [(n, 1)] r q)).holds a 0 = .ok true ↔
      ∃ y, Assoc.get? n.1 a = some y ∧ ∃ x, y.toNumber = .ok x ∧ Comparison.exact r x q = true := by
  have hsum : (LinearClause.canonical [(n, 1)] r q).sum a =
      a.value n.1 >>= fun y => y.toNumber >>= fun x => .ok (0 + 1 * x) := by
    rw [LinearClause.sum, LinearClause.terms_single, List.foldlM_cons]
    dsimp only
    cases a.value n.1 with
    | error e => rfl
    | ok y =>
      rw [ok_bind, ok_bind]
      cases y.toNumber <;> rfl
  rw [Clause.holds, hsum]
  constructor
  · intro h
    obtain ⟨z, hz, h⟩ := bind_eq_ok.mp h
    obtain ⟨y, hy, hz⟩ := bind_eq_ok.mp hz
    obtain ⟨x, hx, hz⟩ := bind_eq_ok.mp hz
    obtain rfl := Except.ok.inj hz
    rw [zero_add, one_mul] at h
    exact ⟨y, Assignment.value_eq_ok.mp hy, x, hx, Except.ok.inj h⟩
  · rintro ⟨y, hy, x, hx, h⟩
    rw [Assignment.value_eq_ok.mpr hy, ok_bind, hx, ok_bind, zero_add, one_mul]
    exact congrArg Except.ok h

/-- A pin holds where the variable has its value. -/
theorem IsPin.holds_iff {x : Datum Rat} (h : p.IsPin n value) (hx : value.IsReadFrom x) :
    p.expr.holds a 0 = .ok true ↔ a.Binds n.1 value.kind x := by
  rw [h.expr, Expr.holds]
  cases value with
  | number q =>
    rw [FixedValue.clause, holds_single]
    refine exists_congr fun y => and_congr_right fun _ => exists_congr fun z => ?_
    refine and_congr_right fun _ => ?_
    rw [Comparison.exact_eq, decide_eq_true_eq]
    exact ⟨fun heq => heq ▸ hx, fun hz => Except.ok.inj (hz.symm.trans hx)⟩
  | label l =>
    obtain rfl : x.label = l := hx
    have haccepts (y : Datum Rat) : (MembershipClause.ofLabels n [x.label] false).accepts y = true ↔
        y.label? = some x.label := by
      have hlabel : (MembershipClause.ofLabels n [x.label] false).accepts y =
          (y.label?.any [x.label].contains != false) := by
        cases y <;> rfl
      rw [hlabel, Bool.bne_false]
      cases y.label? <;> simp
    rw [FixedValue.clause, Clause.holds]
    constructor
    · intro h
      obtain ⟨y, hy, h⟩ := bind_eq_ok.mp h
      exact ⟨y, Assignment.value_eq_ok.mp hy, (haccepts y).mp (Except.ok.inj h)⟩
    · rintro ⟨y, hy, h⟩
      rw [MembershipClause.ofLabels, Assignment.value_eq_ok.mpr hy]
      exact congrArg Except.ok ((haccepts y).mpr h)

end Rule

/-! ### Rules with values plugged in -/

namespace Rule

variable {r r' : Rule Rat} {values a : Assignment Rat} {tol : Rat} {L : Lexicon}

/-- With values for all its variables, an expression holds when it is true. -/
theorem Fits.holds_iff_eval (hr : r.Fits L) (hnumeric : a.IsNumericOn r.expr.uses)
    (hcovers : a.Covers r.expr.uses) :
    r.expr.holds a 0 = .ok true ↔ r.expr.eval .exact a.valuation = true := by
  obtain ⟨d, hd, hwithin⟩ := hr
  have hproper : d.Within Clause.IsProper := fun term hterm c hc => (hwithin term hterm c hc).1.1
  rw [Expr.holds_eq_eval_of_covers (r.isProper hd hproper) hnumeric hcovers, Except.ok.injEq]
  exact Iff.rfl

/-- A rule that uses no variable with a value stays as it is. -/
theorem Fits.substitute_eq_self (hr : r.Fits L)
    (hnone : ∀ n ∈ r.used, Assoc.get? n values = none) : r.substitute values tol = .ok r := by
  obtain ⟨vars, hvars, hmem⟩ := hr.exists_vars
  have hany : ¬ vars.any (Assoc.has · values) = true := fun hany => by
    obtain ⟨n, hn, hhas⟩ := List.any_eq_true.mp hany
    rw [Assoc.has_eq_isSome, hnone n ((hmem n).mp hn)] at hhas
    cases hhas
  rw [substitute, hvars, ok_bind, if_neg hany]
  rfl

/-- What a rule becomes when values are plugged in for all its variables that have one. -/
structure IsBound (values : Assignment Rat) (r r' : Rule Rat) : Prop where
  name : r'.name = r.name
  fits : ∀ L, r.Fits L → r'.Fits L
  /-- No variable with a value is left. -/
  uses : ∀ u ∈ r'.clauses.flatMap Clause.uses,
    u ∈ r.clauses.flatMap Clause.uses ∧ Assoc.get? u.1 values = none
  exprUses : r'.expr.uses ⊆ r.expr.uses
  unchanged : (∀ n ∈ r.used, Assoc.get? n values = none) → r' = r
  eval : ∀ v, v.Matches values (r.clauses.flatMap Clause.uses) →
    r'.expr.eval .exact v = r.expr.eval .exact v
  tight : ∀ settings v, v.Matches values (r.clauses.flatMap Clause.uses) →
    r.TightAt settings v → r'.TightAt settings v

/-- Values can be plugged in when the numeric variables have numbers. -/
theorem Fits.exists_isBound (hr : r.Fits L)
    (hnumeric : values.IsNumericOn (r.clauses.flatMap Clause.uses)) :
    ∃ r', r.substitute values 0 = .ok r' ∧ IsBound values r r' := by
  by_cases hnone : ∀ n ∈ r.used, Assoc.get? n values = none
  · exact ⟨r, hr.substitute_eq_self hnone, {
      name := rfl
      fits := fun _ => id
      uses := fun u hu => ⟨hu, hnone u.1 (mem_used.mpr ⟨u.2, hu⟩)⟩
      exprUses := List.Subset.refl _
      unchanged := fun _ => rfl
      eval := fun _ _ => rfl
      tight := fun _ _ _ => id }⟩
  · obtain ⟨m, hm, hvalue⟩ : ∃ m ∈ r.used, Assoc.get? m values ≠ none := by
      simpa only [not_forall, exists_prop] using hnone
    obtain ⟨d, d', r', hd, hd', hsub, hname, hdnf, hexpr⟩ :=
      hr.exists_substitute values 0 hm hvalue hnumeric
    have huses := Dnf.uses_of_substitute hd'
    have hclauses := clauses_eq hd
    refine ⟨r', hsub, {
      name := hname
      fits := fun L hr => (substitute_fits hr hsub).1
      uses := ?_
      exprUses := fun u hu => ?_
      unchanged := fun h => absurd h hnone
      eval := fun v hv => ?_
      tight := fun settings v hv htight => ?_ }⟩
    · rw [clauses_eq hdnf, hclauses]
      exact huses
    · rw [hexpr] at hu
      exact uses_dnf_subset hd (huses u (Expr.uses_ofDnf_subset d' hu)).1
    · have hproper : d.Within Clause.IsProper :=
        fun term hterm c hc => (hr.within hd term hterm c hc).1.1
      rw [hclauses] at hv hnumeric
      rw [← eval_dnf hdnf, ← eval_dnf hd, Dnf.eval_exact_substitute hproper hnumeric hv hd']
    · rw [hclauses] at hv
      rw [tightAt_iff hdnf]
      exact Dnf.eval_substitute (isReduced hd) hd' hv settings.epsilon.pos le_rfl
        ((tightAt_iff hd).mp htight)

theorem Fits.isBound_of_substitute (hr : r.Fits L)
    (hnumeric : values.IsNumericOn (r.clauses.flatMap Clause.uses))
    (h : r.substitute values 0 = .ok r') : IsBound values r r' := by
  obtain ⟨r'', hsub, hbound⟩ := hr.exists_isBound hnumeric
  obtain rfl := Except.ok.inj (h.symm.trans hsub)
  exact hbound

end Rule

/-! ### Binding variables of a set -/

namespace RuleSet

variable {s t : RuleSet Rat} {bindings : Assignment Rat} {known : List (String × VarKind)}
  {b : String × Datum Rat} {p : Rule Rat} {rules pins : List (Rule Rat)}

/-- The kind that a variable is bound with: its own, and for a new variable that of the value. -/
def bindingKind (known : List (String × VarKind)) (b : String × Datum Rat) : VarKind :=
  (Assoc.get? b.1 known).getD b.2.kindOfValue

/-- The names of the pins for some bindings. -/
def pinNames (bindings : Assignment Rat) : List String :=
  bindings.map fun b => pinName b.1

/-- The pin for a binding whose value suits the variable. -/
def pinOf (known : List (String × VarKind)) (b : String × Datum Rat) :
    Except (Error Rat) (Rule Rat) := do
  Rule.pin (.text b.1) b.2 (some (← checkBinding known b.1 b.2))

theorem kind_of_checkBinding {kind : VarKind} (h : checkBinding known b.1 b.2 = .ok kind) :
    bindingKind known b = kind := by
  unfold checkBinding at h
  dsimp only at h
  rw [bindingKind]
  split at h
  · next hkind =>
    rw [hkind]
    split at h
    · split at h
      · exact Except.ok.inj h
      · cases h
    · split at h
      · exact Except.ok.inj h
      · cases h
    · cases h
  · next hkind =>
    rw [hkind]
    split at h
    · cases h
    · exact Except.ok.inj h

/-- The pin of a binding depends on the kind of the variable only. -/
theorem pinOf_congr {known' : List (String × VarKind)}
    (h : bindingKind known b = bindingKind known' b) : pinOf known b = pinOf known' b := by
  have hcheck : checkBinding known b.1 b.2 = checkBinding known' b.1 b.2 := by
    unfold checkBinding
    rw [← bindingKind, ← bindingKind, h]
  rw [pinOf, pinOf, hcheck]

/-- What is made as the pin of a binding says that the variable has the value. -/
theorem exists_isPin (h : pinOf known b = .ok p) : ∃ n value, n.1 = b.1 ∧
    value.kind = bindingKind known b ∧ value.IsReadFrom b.2 ∧ p.IsPin n value := by
  obtain ⟨kind, hkind, h⟩ := bind_eq_ok.mp h
  rw [kind_of_checkBinding hkind]
  exact Rule.isPin_of_pin h

/-- Binding variables plugs the values into all rules but those that are named like the new pins,
which come last. -/
theorem substitute_eq_ok_iff : s.substitute bindings true = .ok t ↔ ∃ known rules pins,
    s.kinds = .ok known ∧
    (s.without (pinNames bindings)).rules.mapM (·.substitute bindings 0) = .ok rules ∧
    bindings.mapM (pinOf known) = .ok pins ∧ t.rules = rules ++ pins := by
  constructor
  · intro h
    obtain ⟨known, hknown, h⟩ := bind_eq_ok.mp h
    obtain ⟨kinds, hkinds, h⟩ := bind_eq_ok.mp h
    obtain ⟨rules, hrules, h⟩ := bind_eq_ok.mp h
    obtain ⟨pins, hpins, h⟩ := bind_eq_ok.mp h
    exact ⟨known, rules, pins, hknown, hrules, mapM_zip_eq_ok.mp ⟨kinds, hkinds, hpins⟩,
      rules_of_ofList h⟩
  · rintro ⟨known, rules, pins, hknown, hrules, hpins, ht⟩
    obtain ⟨kinds, hkinds, hpins⟩ : ∃ kinds,
        bindings.mapM (fun b => checkBinding known b.1 b.2) = .ok kinds ∧
        (bindings.zip kinds).mapM (fun e => Rule.pin (.text e.1.1) e.1.2 (some e.2)) = .ok pins :=
      mapM_zip_eq_ok.mpr hpins
    have hset : ofList (rules ++ pins) = .ok t := ht ▸ ofList_rules t
    rw [substitute, hknown, ok_bind]
    refine bind_eq_ok.mpr ⟨kinds, hkinds, ?_⟩
    refine bind_eq_ok.mpr ⟨rules, hrules, ?_⟩
    exact bind_eq_ok.mpr ⟨pins, hpins, hset⟩

theorem names_of_pins (hpins : bindings.mapM (pinOf known) = .ok pins) :
    pins.map (·.name) = pinNames bindings :=
  map_eq_of_mapM hpins fun b p hp => by
    obtain ⟨n, value, hn, -, -, hpin⟩ := exists_isPin hp
    rw [hpin.name, hn]

/-- Pins of one name would clash, so every variable is bound once. -/
theorem nodup_of_pins (hpins : bindings.mapM (pinOf known) = .ok pins)
    (ht : t.rules = rules ++ pins) : (bindings.map (·.1)).Nodup := by
  have hdistinct := t.distinct
  rw [ht, List.map_append, names_of_pins hpins, pinNames] at hdistinct
  refine List.Nodup.of_map pinName ?_
  rw [List.map_map]
  exact (List.nodup_append.mp hdistinct).2.1

/-- Rules with a table of kinds agree on them. -/
theorem kindConsistent_of_kinds (h : s.kinds = .ok known) : KindConsistent s.rules := by
  obtain ⟨kinds, hkinds⟩ := (tabulates_kinds h).exists_agrees
  refine ⟨kinds, fun r hr => ?_⟩
  obtain ⟨before, after, hstep⟩ := exists_of_foldlM_eq_ok h hr
  obtain ⟨entries, hentries, -⟩ := bind_eq_ok.mp hstep
  obtain ⟨d, hd, hentries⟩ := bind_eq_ok.mp hentries
  have hproper := (Dnf.tabulates_kinds hentries).2
  refine ⟨d, hd, fun term hterm c hc => ⟨hproper term hterm c hc, ?_⟩⟩
  refine agrees_flatMap_uses.mp hkinds c (List.mem_flatMap.mpr ⟨r, hr, ?_⟩)
  rw [Rule.clauses_eq hd]
  exact List.mem_flatten.mpr ⟨term, hterm, hc⟩

section Bound

variable {v : Valuation} {settings : Settings Rat}

theorem bindingKind_of_mem_usesIn (hknown : s.kinds = .ok known) {u : String × VarKind}
    (hu : u ∈ usesIn s.rules) (hb : b.1 = u.1) : bindingKind known b = u.2 := by
  rw [bindingKind, hb, (tabulates_kinds hknown).get?_eq_some.mpr hu, Option.getD_some]

/-- A set with a table of kinds fits a lexicon with these kinds, in which new variables have the
kinds of the values that they are bound to. -/
theorem exists_lexicon_of_kinds (hknown : s.kinds = .ok known)
    (hnodup : (bindings.map (·.1)).Nodup) :
    ∃ L : Lexicon, (∀ r ∈ s.rules, r.Fits L) ∧ (∀ b ∈ bindings, L.kinds b.1 = bindingKind known b) ∧
      ∀ v l, L.mentions v l := by
  have htab := tabulates_kinds hknown
  let kinds n := (Assoc.get? n known).getD
    (((Assoc.get? n bindings).map Datum.kindOfValue).getD .numeric)
  refine ⟨⟨kinds, fun _ _ => True⟩, fun r hr => ?_, fun b hb => ?_, fun _ _ => trivial⟩
  · obtain ⟨d, hd, hproper⟩ := (kindConsistent_of_kinds hknown).exists_dnf hr
    refine ⟨d, hd, Dnf.within_iff_flatten.mpr fun c hc => ⟨⟨?_, fun u hu => ?_⟩,
      fun _ _ _ => trivial⟩⟩
    · exact Dnf.within_iff_flatten.mp hproper c hc
    · rw [← Rule.clauses_eq hd] at hc
      have huse : u ∈ usesIn s.rules := mem_usesIn.mpr ⟨r, hr, List.mem_flatMap.mpr ⟨c, hc, hu⟩⟩
      simp only [kinds, htab.get?_eq_some.mpr huse, Option.getD_some]
  · simp only [kinds, bindingKind, Assoc.get?_of_mem hnodup hb, Option.map_some, Option.getD_some]

theorem fits_of_pinOf {L : Lexicon} (hkind : L.kinds b.1 = bindingKind known b)
    (hmentions : ∀ v l, L.mentions v l) (h : pinOf known b = .ok p) : p.Fits L := by
  obtain ⟨n, value, hn, hvalue, -, hpin⟩ := exists_isPin h
  exact hpin.fits ⟨by rw [hn, hkind, hvalue], fun l _ => hmentions n.1 l⟩

/-- Numeric variables are bound to numbers. -/
theorem isNumericOn_of_pins (hknown : s.kinds = .ok known)
    (hpins : bindings.mapM (pinOf known) = .ok pins) : bindings.IsNumericOn (usesIn s.rules) := by
  intro n hn x hx
  obtain ⟨p, hp⟩ := exists_of_mapM hpins (Assoc.mem_of_get? hx)
  obtain ⟨-, value, -, hkind, hread, -⟩ := exists_isPin hp
  rw [bindingKind_of_mem_usesIn hknown hn rfl] at hkind
  cases value with
  | number q => exact ⟨q, hread⟩
  | label l => cases hkind

/-- A valuation gives a variable the value that it is bound to. -/
def HasValue (known : List (String × VarKind)) (v : Valuation) (b : String × Datum Rat) : Prop :=
  ∃ value : FixedValue Rat, value.kind = bindingKind known b ∧ value.IsReadFrom b.2 ∧
    value.IsAt v b.1

/-- A pin is tight where the variable has the value. -/
theorem tightAt_iff_hasValue (h : pinOf known b = .ok p) :
    p.TightAt settings v ↔ HasValue known v b := by
  obtain ⟨n, value, hn, hkind, hread, hpin⟩ := exists_isPin h
  rw [hpin.tightAt_iff, hn]
  constructor
  · exact fun hv => ⟨value, hkind, hread, hv⟩
  · rintro ⟨value', hkind', hread', hv⟩
    have hsame : value' = value := by
      have hkinds := hkind'.trans hkind.symm
      cases value <;> cases value'
      · exact congrArg _ (Except.ok.inj (hread'.symm.trans hread))
      · cases hkinds
      · cases hkinds
      · exact congrArg _ (hread'.symm.trans hread)
    exact hsame ▸ hv

/-- A pin holds on the assignments that give the variable the value. -/
theorem holds_iff_binds {a : Assignment Rat} (h : pinOf known b = .ok p) :
    p.expr.holds a 0 = .ok true ↔ a.Binds b.1 (bindingKind known b) b.2 := by
  obtain ⟨n, value, hn, hkind, hread, hpin⟩ := exists_isPin h
  rw [hpin.holds_iff hread, hn, hkind]

theorem hasValue_of_binds {a : Assignment Rat} (hp : pinOf known b = .ok p)
    (h : a.Binds b.1 (bindingKind known b) b.2) : HasValue known a.valuation b := by
  obtain ⟨n, value, hn, hkind, hread, -⟩ := exists_isPin hp
  obtain ⟨y, hy, h⟩ := h
  have hvalue := Assignment.value_eq_ok.mpr hy
  refine ⟨value, hkind, hread, ?_⟩
  rw [← hkind] at h
  cases value with
  | number q =>
    obtain ⟨x, hyx, hx⟩ := h
    obtain rfl := Except.ok.inj (hread.symm.trans hx)
    exact Assignment.number_valuation hvalue hyx
  | label l =>
    obtain rfl : b.2.label = l := hread
    exact (Assignment.label_valuation hvalue).trans h

/-- Where the variables have the values that they are bound to, these are the right ones for
plugging in. -/
theorem matches_of_hasValue (hknown : s.kinds = .ok known)
    (h : ∀ b ∈ bindings, HasValue known v b) : v.Matches bindings (usesIn s.rules) := by
  rintro ⟨n, kind⟩ hu x hx
  obtain ⟨value, hkind, hread, hv⟩ := h _ (Assoc.mem_of_get? hx)
  rw [bindingKind_of_mem_usesIn hknown hu rfl] at hkind
  obtain rfl : value.kind = kind := hkind
  cases value with
  | number q =>
    obtain rfl : v.number n = q := hv
    exact hread
  | label l =>
    obtain rfl : x.label = l := hread
    exact hv

/-- The rules that values are plugged into. -/
theorem isBound_of_mapM (hknown : s.kinds = .ok known)
    (hpins : bindings.mapM (pinOf known) = .ok pins)
    (hrules : (s.without (pinNames bindings)).rules.mapM (·.substitute bindings 0) = .ok rules) :
    List.Forall₂ (Rule.IsBound bindings) (s.without (pinNames bindings)).rules rules := by
  obtain ⟨L, hfits, -⟩ := (kindConsistent_of_kinds hknown).exists_lexicon
  have hnumeric : ∀ r ∈ (s.without (pinNames bindings)).rules, r.Fits L ∧
      bindings.IsNumericOn (r.clauses.flatMap Clause.uses) := fun r hr => by
    have hmem := (mem_without.mp hr).1
    refine ⟨hfits r hmem, (isNumericOn_of_pins hknown hpins).mono fun u hu => ?_⟩
    exact mem_usesIn.mpr ⟨r, hmem, hu⟩
  have hall := (List.forall₂_and_left _ _).mpr ⟨hnumeric, forall₂_of_mapM hrules⟩
  exact hall.imp fun r r' h => h.1.1.isBound_of_substitute h.1.2 h.2

end Bound

/-- Plugging values in keeps a set consistent; a new variable gets the kind of its value. -/
theorem kindConsistent_substitute {addPins : Bool} (hrules : KindConsistent s.rules)
    (h : s.substitute bindings addPins = .ok t) : KindConsistent t.rules := by
  cases addPins with
  | false =>
    obtain ⟨L, hfits, -⟩ := hrules.exists_lexicon
    obtain ⟨known, -, h⟩ := bind_eq_ok.mp h
    obtain ⟨kinds, -, h⟩ := bind_eq_ok.mp h
    obtain ⟨rules, hmade, h⟩ := bind_eq_ok.mp h
    refine kindConsistent_of_fits (L := L) fun r' hr' => ?_
    have ht : t.rules = rules ++ [] := rules_of_ofList h
    rw [ht, List.append_nil] at hr'
    obtain ⟨r, hr, hsub⟩ := exists_of_mem_mapM hmade hr'
    exact (Rule.substitute_fits (hfits r (mem_without.mp hr).1) hsub).1
  | true =>
    obtain ⟨known, rules, pins, hknown, hmade, hpins, ht⟩ := substitute_eq_ok_iff.mp h
    obtain ⟨L, hfits, hkinds, hmentions⟩ :=
      exists_lexicon_of_kinds hknown (nodup_of_pins hpins ht)
    refine kindConsistent_of_fits (L := L) ?_
    rw [ht]
    refine List.forall_mem_append.mpr ⟨fun r' hr' => ?_, fun p hp => ?_⟩
    · obtain ⟨r, hr, hsub⟩ := exists_of_mem_mapM hmade hr'
      exact (Rule.substitute_fits (hfits r (mem_without.mp hr).1) hsub).1
    · obtain ⟨b, hb, hpin⟩ := exists_of_mem_mapM hpins hp
      exact fits_of_pinOf (hkinds b hb) hmentions hpin

/-! ### What a bound set says -/

private theorem forall_mem_iff {α β : Type} {R : α → β → Prop} {P : α → Prop} {Q : β → Prop}
    {l : List α} {m : List β} (h : List.Forall₂ R l m) (hPQ : ∀ a b, R a b → (P a ↔ Q b)) :
    (∀ a ∈ l, P a) ↔ ∀ b ∈ m, Q b := by
  induction h with
  | nil => exact iff_of_true (List.forall_mem_nil P) (List.forall_mem_nil Q)
  | cons hab _ ih => rw [List.forall_mem_cons, List.forall_mem_cons, hPQ _ _ hab, ih]

section Meaning

variable {a : Assignment Rat} (hknown : s.kinds = .ok known)
  (hrules : (s.without (pinNames bindings)).rules.mapM (·.substitute bindings 0) = .ok rules)
  (hpins : bindings.mapM (pinOf known) = .ok pins)

include hknown hrules hpins

/-- Where the variables have the values that they are bound to, the rules with these values
plugged in hold together when the rules do. -/
theorem holds_rules_iff (hbinds : ∀ b ∈ bindings, a.Binds b.1 (bindingKind known b) b.2)
    (ha : ∀ r ∈ (s.without (pinNames bindings)).rules,
      a.IsNumericOn r.expr.uses ∧ a.Covers r.expr.uses) :
    (∀ r ∈ rules, r.expr.holds a 0 = .ok true) ↔
      ∀ r ∈ (s.without (pinNames bindings)).rules, r.expr.holds a 0 = .ok true := by
  obtain ⟨L, hfits, -⟩ := (kindConsistent_of_kinds hknown).exists_lexicon
  have hmatches : a.valuation.Matches bindings (usesIn s.rules) :=
    matches_of_hasValue hknown fun b hb => by
      obtain ⟨p, hp⟩ := exists_of_mapM hpins hb
      exact hasValue_of_binds hp (hbinds b hb)
  have hmem : ∀ r ∈ (s.without (pinNames bindings)).rules, r ∈ s.rules ∧
      a.IsNumericOn r.expr.uses ∧ a.Covers r.expr.uses :=
    fun r hr => ⟨(mem_without.mp hr).1, ha r hr⟩
  have hall := (List.forall₂_and_left _ _).mpr ⟨hmem, isBound_of_mapM hknown hpins hrules⟩
  refine (forall_mem_iff hall fun r r' h => ?_).symm
  obtain ⟨⟨hr, hnumeric, hcovers⟩, hbound⟩ := h
  have hmatches : a.valuation.Matches bindings (r.clauses.flatMap Clause.uses) :=
    hmatches.mono fun u hu => mem_usesIn.mpr ⟨r, hr, hu⟩
  rw [(hfits r hr).holds_iff_eval hnumeric hcovers, ← hbound.eval _ hmatches,
    (hbound.fits L (hfits r hr)).holds_iff_eval (hnumeric.mono hbound.exprUses)
      (hcovers.mono hbound.exprUses)]

/-- Every rule of the result but the pins was made from one that is not named like a pin. -/
theorem exists_isBound_of_mem {r' : Rule Rat} (hr' : r' ∈ rules) :
    ∃ r ∈ s.rules, r.name ∉ pinNames bindings ∧ Rule.IsBound bindings r r' := by
  obtain ⟨L, hfits, -⟩ := (kindConsistent_of_kinds hknown).exists_lexicon
  obtain ⟨r, hr, hsub⟩ := exists_of_mem_mapM hrules hr'
  obtain ⟨hmem, hname⟩ := mem_without.mp hr
  refine ⟨r, hmem, hname, (hfits r hmem).isBound_of_substitute ?_ hsub⟩
  exact (isNumericOn_of_pins hknown hpins).mono fun u hu => mem_usesIn.mpr ⟨r, hmem, hu⟩

/-- Every rule that is not named like a pin is kept with the values plugged in. -/
theorem exists_isBound {r : Rule Rat} (hr : r ∈ s.rules) (hname : r.name ∉ pinNames bindings) :
    ∃ r' ∈ rules, r.substitute bindings 0 = .ok r' ∧ Rule.IsBound bindings r r' := by
  obtain ⟨L, hfits, -⟩ := (kindConsistent_of_kinds hknown).exists_lexicon
  obtain ⟨r', hr', hsub⟩ := exists_mem_of_mapM hrules (mem_without.mpr ⟨hr, hname⟩)
  refine ⟨r', hr', hsub, (hfits r hr).isBound_of_substitute ?_ hsub⟩
  exact (isNumericOn_of_pins hknown hpins).mono fun u hu => mem_usesIn.mpr ⟨r, hr, hu⟩

/-- The pins are the rules of the result that are named like pins. -/
theorem rules_without_pinNames (ht : t.rules = rules ++ pins) :
    (t.without (pinNames bindings)).rules = rules := by
  have hrest : ∀ r' ∈ rules, (!(pinNames bindings).contains r'.name) = true := fun r' hr' => by
    obtain ⟨r, -, hname, hbound⟩ := exists_isBound_of_mem hknown hrules hpins hr'
    simpa [hbound.name] using hname
  have hnone : ∀ p ∈ pins, ¬ (!(pinNames bindings).contains p.name) = true := fun p hp => by
    have hname : p.name ∈ pinNames bindings := names_of_pins hpins ▸ List.mem_map_of_mem hp
    simpa using hname
  change t.rules.filter _ = rules
  rw [ht, List.filter_append, List.filter_eq_self.mpr hrest, List.filter_eq_nil_iff.mpr hnone,
    List.append_nil]

/-- Binding the same variables once more changes nothing. -/
theorem substitute_substitute (ht : t.rules = rules ++ pins) :
    t.substitute bindings true = .ok t := by
  have hconsistent : KindConsistent t.rules := kindConsistent_substitute
    (kindConsistent_of_kinds hknown) (substitute_eq_ok_iff.mpr ⟨_, _, _, hknown, hrules, hpins, ht⟩)
  obtain ⟨L, hfits, -⟩ := hconsistent.exists_lexicon
  obtain ⟨known', hknown', -⟩ := exists_kinds hconsistent
  refine substitute_eq_ok_iff.mpr ⟨known', rules, pins, hknown', ?_, ?_, ht⟩
  · -- no variable with a value is left in a rule, so the rule stays as it is
    rw [rules_without_pinNames hknown hrules hpins ht]
    refine mapM_of_forall₂ (List.forall₂_same.mpr fun r' hr' => ?_)
    obtain ⟨r, -, -, hbound⟩ := exists_isBound_of_mem hknown hrules hpins hr'
    have hmem : r' ∈ t.rules := ht ▸ List.mem_append_left _ hr'
    refine (hfits r' hmem).substitute_eq_self fun n hn => ?_
    obtain ⟨kind, hu⟩ := Rule.mem_used.mp hn
    exact (hbound.uses _ hu).2
  · -- the pins give new variables the kind that the values gave them before
    have hsame : ∀ b ∈ bindings, pinOf known b = pinOf known' b := fun b hb => by
      obtain ⟨p, hp, hpin⟩ := exists_mem_of_mapM hpins hb
      obtain ⟨n, value, hn, hkind, -, hpin⟩ := exists_isPin hpin
      have hu : (n.1, value.kind) ∈ usesIn t.rules := by
        refine mem_usesIn.mpr ⟨p, ht ▸ List.mem_append_right _ hp, ?_⟩
        rw [hpin.uses]
        exact List.mem_singleton_self _
      exact pinOf_congr (hkind.symm.trans (bindingKind_of_mem_usesIn hknown' hu hn.symm).symm)
    have hall := (List.forall₂_and_left _ _).mpr ⟨hsame, forall₂_of_mapM hpins⟩
    exact mapM_of_forall₂ (hall.imp fun b p h => h.1 ▸ h.2)

end Meaning

/-- **Binding keeps the matching solutions.** An assignment satisfies the set that some variables
were bound in exactly when it gives these variables their values and satisfies all rules that are
not named like one of the pins. Of the rules of the result, only the pins are about bound
variables; the other rules keep their order, stay as they are when they use no bound variable, and
come before the pins. Binding the same variables once more changes nothing. -/
theorem substitute_binds (h : s.substitute bindings true = .ok t) : ∃ known, s.kinds = .ok known ∧
    (∀ a : Assignment Rat, (∀ r ∈ s.rules, r.name ∉ pinNames bindings →
        a.IsNumericOn r.expr.uses ∧ a.Covers r.expr.uses) →
      ((∀ r ∈ t.rules, r.expr.holds a 0 = .ok true) ↔
        (∀ b ∈ bindings, a.Binds b.1 (bindingKind known b) b.2) ∧
          ∀ r ∈ s.rules, r.name ∉ pinNames bindings → r.expr.holds a 0 = .ok true)) ∧
    (∀ r ∈ t.rules, r.name ∉ pinNames bindings →
      ∃ d, r.dnf = .ok d ∧ d.Within fun c => ∀ n ∈ c.vars, Assoc.get? n bindings = none) ∧
    (∃ rules pins, t.rules = rules ++ pins ∧
      List.Forall₂ (fun r r' => r.substitute bindings 0 = .ok r' ∧ r'.name = r.name ∧
          ((∀ n ∈ r.used, Assoc.get? n bindings = none) → r' = r))
        (s.without (pinNames bindings)).rules rules ∧
      List.Forall₂ (fun b p => pinOf known b = .ok p ∧ p.name = pinName b.1) bindings pins) ∧
    t.substitute bindings true = .ok t := by
  obtain ⟨known, rules, pins, hknown, hrules, hpins, ht⟩ := substitute_eq_ok_iff.mp h
  refine ⟨known, hknown, ?_, ?_, ⟨rules, pins, ht, ?_, ?_⟩,
    substitute_substitute hknown hrules hpins ht⟩
  · intro a ha
    have hpins_iff : (∀ p ∈ pins, p.expr.holds a 0 = .ok true) ↔
        ∀ b ∈ bindings, a.Binds b.1 (bindingKind known b) b.2 :=
      (forall_mem_iff (forall₂_of_mapM hpins) fun b p hp => (holds_iff_binds hp).symm).symm
    have hwithout : ∀ {P : Rule Rat → Prop}, (∀ r ∈ (s.without (pinNames bindings)).rules, P r) ↔
        ∀ r ∈ s.rules, r.name ∉ pinNames bindings → P r := by
      simp only [mem_without, and_imp, implies_true]
    rw [ht, List.forall_mem_append, hpins_iff, and_comm, ← hwithout]
    exact and_congr_right fun hbinds =>
      holds_rules_iff hknown hrules hpins hbinds (hwithout.mpr ha)
  · intro r' hr' hname
    have hmem : r' ∈ rules :=
      rules_without_pinNames hknown hrules hpins ht ▸ mem_without.mpr ⟨hr', hname⟩
    obtain ⟨r, hr, -, hbound⟩ := exists_isBound_of_mem hknown hrules hpins hmem
    obtain ⟨L, hfits, -⟩ := (kindConsistent_of_kinds hknown).exists_lexicon
    obtain ⟨d, hd, -⟩ := hbound.fits L (hfits r hr)
    refine ⟨d, hd, fun term hterm c hc n hn => ?_⟩
    obtain ⟨kind, hu⟩ := Clause.mem_vars_iff.mp hn
    refine (hbound.uses (n, kind) ?_).2
    rw [Rule.clauses_eq hd]
    exact Dnf.uses_clause_subset hterm hc hu
  · exact List.Forall₂.mp (fun r r' hsub hbound => ⟨hsub, hbound.name, hbound.unchanged⟩)
      (forall₂_of_mapM hrules) (isBound_of_mapM hknown hpins hrules)
  · exact (forall₂_of_mapM hpins).imp fun b p hp => by
      obtain ⟨n, value, hn, -, -, hpin⟩ := exists_isPin hp
      exact ⟨hp, by rw [hpin.name, hn]⟩

/-- A number is plugged into a sum, in place of an older pin, and a second one is a label; the third
variable is new. -/
theorem substitute_binds_sum :
    let x : VarName := ⟨"x", by decide⟩
    let y : VarName := ⟨"y", by decide⟩
    let sum : Rule Rat := ⟨"sum", .atom (.linear (.canonical [(x, 1), (y, 1)] .ge 3)), none,
      by decide, by simp, none⟩
    let old : Rule Rat := ⟨".const_x", .atom (.linear (.canonical [(x, 1)] .eq 9)), none,
      by decide +kernel, by simp, none⟩
    let code : VarName := ⟨"code", by decide⟩
    let seven : Rule Rat := ⟨"seven", .atom (.membership (.ofLabels code ["7"] false)), none,
      by decide, by simp, none⟩
    let s : RuleSet Rat := ⟨[sum, old, seven], by decide⟩
    let bindings : Assignment Rat := [("x", .int 1), ("code", .int 7), ("z", .text "new")]
    let a : Assignment Rat := [("x", .real 1), ("y", .int 2), ("code", .text "7"),
      ("z", .text "new")]
    ∃ t known, s.substitute bindings true = .ok t ∧
      t.names = ["sum", "seven", ".const_x", ".const_code", ".const_z"] ∧
      s.kinds = .ok known ∧ (∀ r ∈ t.rules, r.expr.holds a 0 = .ok true) ∧
      (∀ b ∈ bindings, a.Binds b.1 (bindingKind known b) b.2) ∧
      t.substitute bindings true = .ok t := by
  intro x y sum old code seven s bindings a
  have hsome : (s.substitute bindings true).toOption.any (fun t =>
      decide (t.names = ["sum", "seven", ".const_x", ".const_code", ".const_z"]) &&
        t.rules.all fun r => (r.expr.holds a 0).toOption == some true) = true := by
    decide +kernel
  obtain ⟨t, ht, hall⟩ := exists_of_any_toOption hsome
  rw [Bool.and_eq_true, decide_eq_true_eq, List.all_eq_true] at hall
  have hholds : ∀ r ∈ t.rules, r.expr.holds a 0 = .ok true := fun r hr =>
    eq_ok_of_toOption (eq_of_beq (hall.2 r hr))
  obtain ⟨known, hknown, hiff, -, -, hagain⟩ := substitute_binds ht
  have huses : ∀ r ∈ s.rules,
      r.expr.uses ⊆ [("x", .numeric), ("y", .numeric), ("code", .categorical)] := by
    decide +kernel
  have hsuits : a.Suits [("x", .numeric), ("y", .numeric), ("code", .categorical)] := by
    intro u hu
    simp only [List.mem_cons, List.not_mem_nil, or_false] at hu
    rcases hu with rfl | rfl | rfl
    · exact ⟨.real 1, rfl, Rational.isFinite_eq _⟩
    · exact ⟨.int 2, rfl, trivial⟩
    · exact ⟨.text "7", rfl, trivial⟩
  have hbinds := ((hiff a fun r hr _ =>
    ⟨hsuits.isNumericOn.mono (huses r hr), hsuits.covers.mono (huses r hr)⟩).mp hholds).1
  exact ⟨t, known, ht, hall.1, hknown, hholds, hbinds, hagain⟩

end RuleSet

end RuleAudit
