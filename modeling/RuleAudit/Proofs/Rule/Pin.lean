import RuleAudit.Proofs.Rule.Bind
import RuleAudit.Proofs.RuleSet
import RuleAudit.Query.Fixed

/-!
# Pins and probes

A pin says that a variable has a value; probes say that it keeps a distance from one. Both are made
for a value that a variable may be fixed to, and consist of a single clause.
-/

namespace RuleAudit

/-! ### Clauses about one variable -/

theorem VarName.read_text (n : VarName) : VarName.read (K := Rat) (.text n.1) = .ok n :=
  dif_pos n.2

/-- A single term with coefficient one. -/
theorem LinearClause.terms_single (n : VarName) (r : Relation) (x : Rat) :
    (canonical [(n, 1)] r x).terms = [(n.1, 1)] := by
  have hone : (0 + 1 : Rat) = 1 := zero_add 1
  have hcollect : collect [(n.1, (1 : Rat))] = [(n.1, 1)] := congrArg (fun q => [(n.1, q)]) hone
  exact (congrArg (List.filter fun t => !(t.2 == 0)) hcollect).trans rfl

theorem LinearClause.ofPairs_single (n : VarName) (r : Relation) (x : Rat) :
    ofPairs [(n.1, 1)] r x = .ok (canonical [(n, 1)] r x) := by
  rw [ofPairs, List.mapM_cons]
  dsimp only
  rw [VarName.read_text]
  rfl

theorem Clause.eval_single (cmp : Comparison) (v : Valuation) (n : VarName) (r : Relation)
    (x : Rat) :
    (linear (.canonical [(n, 1)] r x)).eval cmp v = cmp r (v.number n.1) x := by
  rw [eval, LinearClause.sumAt, LinearClause.terms_single]
  simp [LinearClause.canonical]

/-! ### Values -/

/-- A number that was read is the number of the datum. -/
theorem Quantity.toNumber_of_read {q : Quantity} {d : Datum Rat} {x : Rat} (h : q.read d = .ok x) :
    d.toNumber = .ok x := by
  rw [Quantity.read.eq_def] at h
  split at h
  · cases h
  · split at h
    · next y hy =>
      rw [Quantity.check] at h
      split at h
      · exact hy.trans h
      · cases h
    · cases h
    · cases h

namespace FixedValue

/-- The kind of variable that has such values. -/
def kind : FixedValue Rat → VarKind
  | number _ => .numeric
  | label _ => .categorical

/-- The variable has the value. -/
def IsAt (v : Valuation) (n : String) : FixedValue Rat → Prop
  | number x => v.number n = x
  | label l => v.label n = some l

/-- The variable keeps a distance from the value. -/
def IsAway (eps : Rat) (v : Valuation) (n : String) : FixedValue Rat → Prop
  | number x => v.number n ≤ x - eps ∨ x + eps ≤ v.number n
  | label l => v.label n ≠ some l

/-- The value may be that of a variable in a lexicon. -/
def Suits (L : Lexicon) (n : String) (value : FixedValue Rat) : Prop :=
  L.kinds n = value.kind ∧ ∀ l, value = label l → L.mentions n l

/-- The value that a datum is read as. -/
def IsReadFrom (d : Datum Rat) : FixedValue Rat → Prop
  | number x => d.toNumber = .ok x
  | label l => d.label = l

/-- The clause that a variable has the value. -/
def clause (n : VarName) : FixedValue Rat → Clause Rat
  | number x => .linear (.canonical [(n, 1)] .eq x)
  | label l => .membership (.ofLabels n [l] false)

theorem isAt_congr {v w : Valuation} {n : String} {value : FixedValue Rat}
    (hkind : value.kind = .categorical) (hlabel : v.label n = w.label n) (h : value.IsAt w n) :
    value.IsAt v n := by
  cases value with
  | number x => cases hkind
  | label l => exact hlabel.trans h

variable {n : VarName} {value : FixedValue Rat} {L : Lexicon}

theorem uses_clause : (value.clause n).uses = [(n.1, value.kind)] := by
  cases value with
  | number x =>
    rw [clause, Clause.uses, LinearClause.vars, LinearClause.terms_single]
    rfl
  | label l => rfl

theorem constant?_clause : (value.clause n).constant? = none := by
  cases value with
  | number x =>
    rw [clause, Clause.constant?, LinearClause.terms_single]
    rfl
  | label l => rfl

theorem fits_clause (h : value.Suits L n.1) : (value.clause n).Fits L := by
  refine ⟨⟨?_, fun u hu => ?_⟩, fun v l hm => ?_⟩
  · cases value <;> trivial
  · rw [uses_clause] at hu
    obtain rfl := List.mem_singleton.mp hu
    exact h.1
  · cases value with
    | number x => exact hm.elim
    | label k =>
      obtain ⟨rfl, hl⟩ := hm
      obtain rfl := List.mem_singleton.mp (MembershipClause.mem_sortLabels.mp hl)
      exact h.2 l rfl

theorem eval_clause (eps : Rat) (v : Valuation) :
    (value.clause n).eval (.margin eps) v = true ↔ value.IsAt v n.1 := by
  cases value with
  | number x =>
    rw [clause, Clause.eval_single]
    exact decide_eq_true_iff
  | label l =>
    have hlists : (MembershipClause.ofLabels n [l] false).lists v = true ↔
        v.label n.1 = some l := by
      rw [MembershipClause.lists, MembershipClause.ofLabels]
      cases v.label n.1 with
      | none => simp
      | some k => simp [MembershipClause.sortLabels, MembershipClause.insertLabel]
    rw [clause, Clause.eval, IsAt, ← hlists]
    change ((_ != false) = true) ↔ _
    rw [Bool.bne_false]

theorem isPinOf_clause : Rule.isPinOf [[value.clause n]] n.1 = true := by
  cases value with
  | number x =>
    have hvars : (LinearClause.canonical [(n, 1)] .eq x : LinearClause Rat).vars = [n.1] := by
      rw [LinearClause.vars, LinearClause.terms_single]
      rfl
    rw [clause, Rule.isPinOf, hvars]
    simp [LinearClause.canonical]
  | label l => simp [clause, Rule.isPinOf, MembershipClause.ofLabels, MembershipClause.sortLabels,
      MembershipClause.insertLabel]

end FixedValue

/-! ### Pins -/

namespace Rule

variable {r : Rule Rat} {n : VarName} {value : FixedValue Rat} {L : Lexicon}
  {settings : Settings Rat} {v : Valuation}

/-- A rule of one clause is tight where the clause is true with a margin. -/
theorem tightAt_atom {c : Clause Rat} (hd : r.dnf = .ok [[c]]) :
    r.TightAt settings v ↔ c.eval (.margin settings.epsilon.value) v = true := by
  rw [tightAt_iff hd, Dnf.eval, List.any_cons, List.any_nil, Bool.or_false, List.all_cons,
    List.all_nil, Bool.and_true]

theorem fits_atom {c : Clause Rat} (hd : r.dnf = .ok [[c]]) (hc : c.Fits L) : r.Fits L :=
  ⟨_, hd, by simpa [Dnf.Within] using hc⟩

/-- Where a pin of a categorical variable is tight, the variable has one label. -/
theorem IsCategorical.label_eq_of_isPinFor {n : String} {w : Valuation} (h : r.IsCategorical)
    (hpin : r.isPinFor n = true) (hv : r.TightAt settings v) (hw : r.TightAt settings w) :
    (n, .categorical) ∈ r.clauses.flatMap Clause.uses ∧ v.label n = w.label n := by
  obtain ⟨d, hd, hv⟩ := hv
  have hmembership := h.within hd
  rw [tightAt_iff hd] at hw
  rw [isPinFor_eq hd] at hpin
  rw [clauses_eq hd]
  unfold isPinOf at hpin
  split at hpin
  · exact (hmembership _ (List.mem_singleton_self _) _ (List.mem_singleton_self _)).elim
  · next c =>
    rw [Bool.and_eq_true, Bool.and_eq_true, beq_iff_eq, beq_iff_eq, Bool.not_eq_true'] at hpin
    obtain ⟨⟨rfl, hnegated⟩, hlength⟩ := hpin
    obtain ⟨l, hl⟩ := List.length_eq_one_iff.mp hlength
    have hlabel {x : Valuation} (hx : Dnf.eval (.margin settings.epsilon.value) x
        [[.membership c]] = true) : x.label c.subject = some l := by
      have hlists : c.lists x = true := by
        simpa [Dnf.eval, Clause.eval, hnegated] using hx
      rw [MembershipClause.lists, hl] at hlists
      cases hx : x.label c.subject with
      | none => rw [hx] at hlists; cases hlists
      | some k => rw [hx] at hlists; simpa using hlists
    exact ⟨by simp [Clause.uses], (hlabel hv).trans (hlabel hw).symm⟩
  · cases hpin

/-- The rule says that the variable has the value. -/
structure IsPin (r : Rule Rat) (n : VarName) (value : FixedValue Rat) : Prop where
  name : r.name = pinName n.1
  dnf : r.dnf = .ok [[value.clause n]]
  expr : r.expr = .atom (value.clause n)

namespace IsPin

variable (h : r.IsPin n value)

include h

theorem fits (hvalue : value.Suits L n.1) : r.Fits L :=
  fits_atom h.dnf (FixedValue.fits_clause hvalue)

theorem tightAt_iff : r.TightAt settings v ↔ value.IsAt v n.1 := by
  rw [tightAt_atom h.dnf, FixedValue.eval_clause]

theorem isPinFor : r.isPinFor n.1 = true := by
  rw [isPinFor_eq h.dnf, FixedValue.isPinOf_clause]

theorem openVars : r.openVars = [] :=
  openVars_of_isPinFor h.dnf h.isPinFor

theorem isCategorical (hkind : value.kind = .categorical) : r.IsCategorical := by
  cases value with
  | number x => cases hkind
  | label l =>
    rw [IsCategorical, clauses_eq h.dnf]
    simp [FixedValue.clause, Clause.IsMembership]

theorem uses : r.clauses.flatMap Clause.uses = [(n.1, value.kind)] := by
  rw [clauses_eq h.dnf, ← FixedValue.uses_clause]
  exact List.flatMap_singleton _ _

theorem exprUses : r.expr.uses = [(n.1, value.kind)] := by
  rw [h.expr, ← FixedValue.uses_clause]
  exact List.flatMap_singleton _ _

end IsPin

private theorem exists_isPin (n : VarName) (value : FixedValue Rat) :
    ∃ r, make (.text (pinName n.1)) (.atom (value.clause n)) = .ok r ∧ r.IsPin n value := by
  have hblank : ¬ Text.Blank (pinName n.1) := by
    simp [pinName, Text.Blank, Text.isBlank, Text.inRanges, Text.blankRanges]
  have hfits : (value.clause n).Fits ⟨fun _ => value.kind, fun _ _ => True⟩ :=
    FixedValue.fits_clause ⟨rfl, fun _ _ => trivial⟩
  obtain ⟨r, hr, hname, hdnf, hexpr⟩ :=
    exists_make_atom hblank hfits.1 FixedValue.constant?_clause
  exact ⟨r, hr, hname, hdnf, hexpr⟩

private theorem pin_numeric (n : VarName) (d : Datum Rat) :
    pin (.text n.1) d (some .numeric) = Quantity.rightSide.read d >>= fun x =>
      make (.text (pinName n.1)) (.atom ((FixedValue.number x).clause n)) := by
  have hclause : LinearClause.make [(.text n.1, .real 1)] (.text Relation.eq.symbol) d =
      Quantity.rightSide.read d >>= fun x => .ok (.canonical [(n, 1)] .eq x) := by
    rw [LinearClause.make, List.mapM_cons]
    dsimp only
    rw [VarName.read_text]
    rfl
  rw [pin]
  change (LinearClause.make _ _ d >>= fun c => make _ (.atom (.linear c))) = _
  rw [hclause]
  cases Quantity.rightSide.read d <;> rfl

private theorem pin_categorical (n : VarName) (d : Datum Rat) :
    pin (.text n.1) d (some .categorical) =
      make (.text (pinName n.1)) (.atom ((FixedValue.label d.label).clause n)) := by
  have hclause : MembershipClause.make (K := Rat) (.text n.1) (.text d.label) (.bool false) =
      .ok (.ofLabels n [d.label] false) := by
    rw [MembershipClause.make, VarName.read_text]
    rfl
  rw [pin]
  change (MembershipClause.make _ _ _ >>= fun c => make _ (.atom (.membership c))) = _
  rw [hclause]
  rfl

theorem exists_pin (n : VarName) (value : FixedValue Rat) :
    ∃ r, pin (.text n.1) value.toDatum (some value.kind) = .ok r ∧ r.IsPin n value := by
  obtain ⟨r, hr, hpin⟩ := exists_isPin n value
  refine ⟨r, ?_, hpin⟩
  cases value with
  | number x =>
    rw [FixedValue.kind, pin_numeric]
    exact hr
  | label l =>
    rw [FixedValue.kind, pin_categorical]
    exact hr

/-- What is made as a pin for some datum is one. -/
theorem isPin_of_pin {name : String} {d : Datum Rat} {kind : VarKind}
    (h : pin (.text name) d (some kind) = .ok r) :
    ∃ n value, n.1 = name ∧ value.kind = kind ∧ value.IsReadFrom d ∧ r.IsPin n value := by
  obtain ⟨n, rfl⟩ : ∃ n : VarName, n.1 = name := by
    refine ⟨⟨name, ?_⟩, rfl⟩
    rintro rfl
    cases kind with
    | numeric => cases h
    | categorical => cases h
  have hmade (value : FixedValue Rat)
      (h : make (.text (pinName n.1)) (.atom (value.clause n)) = .ok r) : r.IsPin n value := by
    obtain ⟨r', hr', hpin⟩ := exists_isPin n value
    obtain rfl := Except.ok.inj (hr'.symm.trans h)
    exact hpin
  cases kind with
  | numeric =>
    rw [pin_numeric] at h
    obtain ⟨x, hx, h⟩ := Outcome.bind_eq_ok.mp h
    exact ⟨n, .number x, rfl, rfl, Quantity.toNumber_of_read hx, hmade _ h⟩
  | categorical =>
    rw [pin_categorical] at h
    exact ⟨n, .label d.label, rfl, rfl, rfl, hmade _ h⟩

end Rule

/-! ### Probes -/

namespace FixedValue

variable {n : VarName} {L : Lexicon} {r : Relation} {x : Rat}

theorem fits_single (h : L.kinds n.1 = .numeric) :
    (Clause.linear (.canonical [(n, 1)] r x)).Fits L := by
  have huses : (Clause.linear (.canonical [(n, 1)] r x)).uses = [(n.1, .numeric)] := by
    rw [Clause.uses, LinearClause.vars, LinearClause.terms_single]
    rfl
  refine ⟨⟨trivial, fun u hu => ?_⟩, fun _ _ hm => hm.elim⟩
  rw [huses] at hu
  obtain rfl := List.mem_singleton.mp hu
  exact h

private theorem exists_side (h : L.kinds n.1 = .numeric) (sign : String) (r : Relation) (x : Rat) :
    ∃ probe : Rule Rat, (LinearClause.ofPairs [(n.1, 1)] r x >>= fun c =>
        Rule.make (.text ("~" ++ n.1 ++ sign)) (.atom (.linear c))) = .ok probe ∧ probe.Fits L ∧
      ∀ settings v, probe.TightAt settings v ↔
        Comparison.margin settings.epsilon.value r (v.number n.1) x = true := by
  have hblank : ¬ Text.Blank ("~" ++ n.1 ++ sign) := by
    rw [String.append_assoc]
    exact Rule.not_blank_tilde _
  have hopen : (Clause.linear (.canonical [(n, 1)] r x)).constant? = none := by
    rw [Clause.constant?, LinearClause.terms_single]
    rfl
  obtain ⟨probe, hprobe, -, hdnf, -⟩ := Rule.exists_make_atom hblank (fits_single h).1 hopen
  refine ⟨probe, ?_, Rule.fits_atom hdnf (fits_single h), fun settings v => ?_⟩
  · rw [LinearClause.ofPairs_single]
    exact hprobe
  · rw [Rule.tightAt_atom hdnf, Clause.eval_single]

/-- Together, the probes for a value are tight where the variable is away from it. -/
theorem exists_probes {value : FixedValue Rat} (h : value.Suits L n.1) (eps : Rat) :
    ∃ probes, value.probes eps n.1 = .ok probes ∧ (∀ p ∈ probes, p.Fits L) ∧
      ∀ settings v, (∃ p ∈ probes, p.TightAt settings v) ↔ value.IsAway eps v n.1 := by
  cases value with
  | number x =>
    obtain ⟨below, hbelow, hbelowFits, hbelowTight⟩ := exists_side h.1 "<" .le (x - eps)
    obtain ⟨above, habove, haboveFits, haboveTight⟩ := exists_side h.1 ">" .ge (x + eps)
    refine ⟨[below, above], ?_, by simp [hbelowFits, haboveFits], fun settings v => ?_⟩
    · exact Outcome.bind_eq_ok.mpr ⟨below, hbelow, Outcome.bind_eq_ok.mpr ⟨above, habove, rfl⟩⟩
    · simp [hbelowTight, haboveTight, IsAway, Comparison.margin]
  | label l =>
    let c : Clause Rat := .membership (.ofLabels n [l] true)
    have hc : c.Fits L :=
      (Clause.unsigned_fits L).opposite _ (fits_clause h).1.1 |>.mp (fits_clause h)
        [c] (List.mem_singleton_self _) c (List.mem_singleton_self _)
    obtain ⟨probe, hprobe, -, hdnf, -⟩ :=
      Rule.exists_make_atom (Rule.not_blank_tilde n.1) hc.1 rfl
    have hclause : MembershipClause.make (K := Rat) (.text n.1) (.text l) (.bool true) =
        .ok (.ofLabels n [l] true) := by
      rw [MembershipClause.make, VarName.read_text]
      rfl
    refine ⟨[probe], ?_, by simp [Rule.fits_atom hdnf hc], fun settings v => ?_⟩
    · exact Outcome.bind_eq_ok.mpr ⟨_, hclause, Outcome.bind_eq_ok.mpr ⟨probe, hprobe, rfl⟩⟩
    · have heval : (clause n (.label l)).eval (.margin settings.epsilon.value) v = true ↔
          (label l).IsAt v n.1 := eval_clause _ v
      have hopposite : c.eval (.margin settings.epsilon.value) v =
          !(clause n (.label l)).eval (.margin settings.epsilon.value) v := by
        change ((MembershipClause.ofLabels n [l] false).lists v != true) =
          !((MembershipClause.ofLabels n [l] false).lists v != false)
        rw [Bool.bne_true, Bool.bne_false]
      simp only [List.exists_mem_cons_iff, List.not_mem_nil, false_and, exists_false, or_false]
      rw [Rule.tightAt_atom hdnf, hopposite, Bool.not_eq_true', Bool.eq_false_iff, ne_eq, heval]
      rfl

end FixedValue

end RuleAudit
