import RuleAudit.Proofs.Rule
import RuleAudit.Proofs.Rule.Flaws
import RuleAudit.Query
import RuleAudit.Rule.Bind

/-!
# Rules that are derived from rules

The opposite of a rule, a rule with values plugged in, and a pin are made of clauses again, and
making them goes wrong only in that their definition is malformed. For values this needs that
numeric variables get what can be read as a number; the bindings of a rule set are checked for that,
and the check tells integers that are out of range (`RuleSet.ends_substitute`).
-/

namespace RuleAudit

open Outcome

variable {K : Type} [Scalar K]

/-! ### Making rules -/

namespace Rule

variable {r : Rule K} {d : Dnf K} {name : String}

theorem ends_make {e : Expr K} (he : e.IsProper) (name : Datum K) :
    Ends Error.IsDefinition (·.expr.IsProper) (make name e) :=
  (failsOnly_readName name).ends.bind fun _ _ => ends_ok he

theorem name_of_readName {n : { s : String // ¬ Text.Blank s }}
    (h : readName (K := K) (.text name) = .ok n) : n.1 = name := by
  rw [readName] at h
  split at h
  · exact congrArg Subtype.val (Except.ok.inj h).symm
  · cases h

theorem ends_ofDnf (hd : d.Within Clause.IsProper) (name : String) :
    Ends Error.IsDefinition (fun r => r.name = name ∧ r.expr.IsProper) (ofDnf (.text name) d) := by
  rw [ofDnf, Dnf.checkComparable_eq hd]
  refine (failsOnly_readName (.text name)).ends.bind fun n hn => ends_ok ⟨name_of_readName hn, ?_⟩
  exact isProper (d := d.reduce) rfl hd.reduce

/-- The opposite of a rule is made of clauses, whatever the rule is made of. -/
theorem ends_opposite (r : Rule K) :
    Ends Error.IsDefinition (·.expr.IsProper) r.opposite := by
  refine (r.expr.failsOnly_negate (.text r.name)).ends.bind fun d hd => ?_
  exact (ends_ofDnf (Expr.hasForm_of_negate hd).within _).imp_result fun _ => And.right

theorem failsOnly_vars (hr : r.expr.IsProper) : FailsOnly Error.IsDefinition r.vars := by
  refine r.failsOnly_dnf.bind fun d hd => ?_
  have hproper := Dnf.within_iff_flatten.mp (within_isProper hd hr)
  refine failsOnly_foldlM fun c hc vars => ?_
  cases c with
  | linear c => exact failsOnly_ok _
  | membership c => exact failsOnly_ok _
  | foreign d => exact (hproper _ hc).elim

end Rule

/-! ### Plugging values in -/

section Values

variable {values : Assignment K} (tol : K)

theorem LinearClause.failsOnly_residue {c : LinearClause K}
    (h : values.IsNumericOn (Clause.linear c).uses) :
    FailsOnly Error.IsDefinition (c.residue values) := by
  refine failsOnly_foldlM fun ⟨n, a⟩ ht rhs => ?_
  dsimp only
  split
  · next v hv =>
    have hn : (n, VarKind.numeric) ∈ (Clause.linear c).uses :=
      List.mem_map_of_mem (List.mem_map_of_mem (f := Prod.fst) ht)
    obtain ⟨x, hx⟩ := h n hn v hv
    rw [hx]
    exact failsOnly_ok _
  · exact failsOnly_ok _

theorem Clause.ends_substitute {c : Clause K} (hc : c.IsProper) (h : values.IsNumericOn c.uses) :
    Ends Error.IsDefinition (fun out => ∀ c', out = .inl c' → c'.IsProper)
      (c.substitute values tol) := by
  cases c with
  | linear c =>
    rw [substitute]
    refine ends_ite (fun _ => ?_) fun _ => ends_ok ?_
    · refine (LinearClause.failsOnly_residue h).ends.bind fun rhs _ => ?_
      refine ends_ite (fun _ => ends_ok fun _ h => nomatch h) fun _ => ?_
      refine (c.failsOnly_rebuild _ _ _).ends.map fun c' _ _ h => ?_
      exact Sum.inl.inj h ▸ trivial
    · rintro _ ⟨⟩
      exact trivial
  | membership c =>
    rw [substitute]
    split
    · exact ends_ok fun _ h => Sum.inl.inj h ▸ trivial
    · exact ends_ok fun _ h => nomatch h
  | foreign d => exact hc.elim

namespace Dnf

theorem ends_substituteTerm {term : Term K} (hterm : ∀ c ∈ term, c.IsProper)
    (h : values.IsNumericOn (term.flatMap Clause.uses)) :
    Ends Error.IsDefinition (fun out => ∀ kept, out = some kept → ∀ c ∈ kept, c.IsProper)
      (substituteTerm values tol term) := by
  induction term with
  | nil => exact ends_ok fun _ h => Option.some.inj h ▸ List.forall_mem_nil _
  | cons c term ih =>
    obtain ⟨hc, hterm⟩ := List.forall_mem_cons.mp hterm
    rw [List.flatMap_cons] at h
    have hrest := ih hterm (h.mono (List.subset_append_right _ _))
    rw [substituteTerm]
    refine (c.ends_substitute tol hc (h.mono (List.subset_append_left _ _))).bind fun out hout => ?_
    match out, hout with
    | .inr false, _ => exact ends_ok fun _ h => nomatch h
    | .inr true, _ => exact hrest
    | .inl c', hc' =>
      refine hrest.map fun kept hkept all hall => ?_
      obtain ⟨rest, hsome, rfl⟩ := Option.map_eq_some_iff.mp hall
      exact List.forall_mem_cons.mpr ⟨hc' c' rfl, hkept rest hsome⟩

theorem ends_substitute {d : Dnf K} (hd : d.Within Clause.IsProper)
    (h : values.IsNumericOn (d.flatten.flatMap Clause.uses)) :
    Ends Error.IsDefinition (·.Within Clause.IsProper) (d.substitute values tol) := by
  refine (ends_mapM fun term hterm =>
    ends_substituteTerm tol (hd term hterm) (h.mono (uses_term_subset hterm))).map
      fun terms hterms => Within.reduce fun kept hkept c hc => ?_
  obtain ⟨out, hout, hsome⟩ := List.mem_filterMap.mp hkept
  exact hterms out hout kept hsome c hc

end Dnf

theorem Rule.ends_substitute {r : Rule K} (hr : r.expr.IsProper)
    (h : values.IsNumericOn (r.clauses.flatMap Clause.uses)) :
    Ends Error.IsDefinition (·.expr.IsProper) (r.substitute values tol) := by
  refine (failsOnly_vars hr).ends.bind fun vars _ => ends_ite (fun _ => ?_) fun _ => ends_ok hr
  refine r.failsOnly_dnf.ends.bind fun d hd => ?_
  rw [clauses_eq hd] at h
  refine (Dnf.ends_substitute tol (within_isProper hd hr) h).bind fun d' hd' => ?_
  exact (ends_ofDnf hd' _).imp_result fun _ => And.right

end Values

/-! ### Pins -/

theorem Quantity.failsOnly_read (q : Quantity) {d : Datum K}
    (h : ∀ o, d.toNumber ≠ .error (.overflow o)) : FailsOnly Error.IsDefinition (q.read d) := by
  unfold read
  split
  · exact failsOnly_error trivial
  · split
    · exact q.failsOnly_check _ _
    · next o ho => exact absurd ho (h o)
    · exact failsOnly_error trivial

theorem LinearClause.failsOnly_make_unit (var : Datum K) (relation : String) {value : Datum K}
    (h : ∀ o, value.toNumber ≠ .error (.overflow o)) :
    FailsOnly Error.IsDefinition (make [(var, .real 1)] (.text relation) value) := by
  have hone : ∀ o, (Datum.real (1 : K)).toNumber ≠ .error (.overflow o) := fun o h => nomatch h
  refine (failsOnly_mapM fun p hp => ?_).bind fun terms _ => ?_
  · obtain rfl := List.mem_singleton.mp hp
    exact (VarName.failsOnly_read var).bind fun name _ => (Quantity.failsOnly_read _ hone).map _
  · dsimp only
    split
    · exact (Quantity.failsOnly_read _ h).map _
    · exact FailsOnly.bind (failsOnly_error trivial) fun _ h => nomatch h

/-- A pin can be made of any value that is not out of range. -/
theorem Rule.ends_pin (var : String) {value : Datum K} {kind : Option VarKind}
    (h : kind.getD value.kindOfValue = .numeric → ∀ o, value.toNumber ≠ .error (.overflow o)) :
    Ends Error.IsDefinition (·.expr.IsProper) (pin (.text var) value kind) := by
  have hmake : ∀ c : Clause K, c.IsProper → Ends Error.IsDefinition (·.expr.IsProper)
      (make (.text (pinName (Datum.text (K := K) var).label)) (.atom c)) := fun c hc =>
    ends_make (e := .atom c) (fun leaf hleaf => ⟨c, List.mem_singleton.mp hleaf, hc⟩) _
  unfold pin
  split
  · next hkind =>
    refine (LinearClause.failsOnly_make_unit _ _ (h hkind)).ends.bind fun c _ => ?_
    exact hmake (.linear c) trivial
  · refine Ends.bind (P := fun _ => True) ?_ fun c _ => hmake (.membership c) trivial
    exact (VarName.failsOnly_read _).ends.bind fun _ _ => ends_ok trivial

/-! ### Bindings of a rule set -/

/-- An integer among values that are plugged in is out of range. -/
def Assignment.Overflows (bindings : Assignment K) (e : Error K) : Prop :=
  e = .overflow .integer ∧ ∃ b ∈ bindings, b.2.IsOversized

namespace RuleSet

variable {s : RuleSet K} {bindings : Assignment K}

/-- The expressions of all rules are made of clauses. -/
def IsProper (s : RuleSet K) : Prop :=
  ∀ r ∈ s.rules, r.expr.IsProper

theorem ends_ofList {rules : List (Rule K)} (h : ∀ r ∈ rules, r.expr.IsProper) :
    Ends Error.IsDefinition IsProper (ofList rules) := by
  refine ⟨failsOnly_ofList rules, fun s hs => ?_⟩
  rw [ofList] at hs
  split at hs
  · obtain rfl := Except.ok.inj hs
    exact h
  · cases hs

theorem failsOnly_kinds (s : RuleSet K) : FailsOnly Error.IsDefinition s.kinds :=
  failsOnly_foldlM fun r _ _ => r.failsOnly_kinds.bind fun _ _ => failsOnly_mergeKinds _ _ _ _

/-- A binding is refused when its value does not suit the variable. Otherwise a value for a numeric
variable can be read as a number. -/
theorem ends_checkBinding (kinds : List (String × VarKind)) (var : String) (value : Datum K) :
    Ends (fun e => e.IsDefinition ∨ e = .overflow .integer ∧ value.IsOversized)
      (fun kind => kind = (Assoc.get? var kinds).getD value.kindOfValue ∧
        (kind = .numeric → ∃ x, value.toNumber = .ok x)) (checkBinding kinds var value) := by
  unfold checkBinding
  dsimp only
  split
  · next hkind =>
    split
    · next n =>
      split
      · next h =>
        refine ends_ok ⟨hkind.symm, fun _ => ?_⟩
        obtain ⟨x, hx⟩ := Option.isSome_iff_exists.mp h
        exact ⟨x, by rw [Datum.toNumber, hx]⟩
      · next h => exact ends_error (.inr ⟨rfl, Datum.isOversized_int (by simpa using h)⟩)
    · next x =>
      refine ends_ite (fun _ => ends_ok ⟨hkind.symm, fun _ => ⟨x, rfl⟩⟩) fun _ => ?_
      exact ends_error (.inl trivial)
    · exact ends_error (.inl trivial)
  · next hkind =>
    split
    · exact ends_error (.inl trivial)
    · exact ends_ok ⟨hkind.symm, by rintro ⟨⟩⟩

theorem failsOnly_checkBindings (kinds : List (String × VarKind)) (bindings : Assignment K) :
    FailsOnly (fun e => e.IsDefinition ∨ bindings.Overflows e)
      (bindings.mapM fun b => checkBinding kinds b.1 b.2) :=
  failsOnly_mapM fun b hb => (ends_checkBinding kinds b.1 b.2).failsOnly.mono fun _ =>
    .imp_right fun ⟨he, hsize⟩ => ⟨he, b, hb, hsize⟩

/-- Values that were checked can be read as numbers where the rules need that. -/
theorem isNumericOn_of_checkBindings {known : List (String × VarKind)}
    (hknown : s.kinds = .ok known) {kinds : List VarKind}
    (hkinds : bindings.mapM (fun b => checkBinding known b.1 b.2) = .ok kinds) :
    bindings.IsNumericOn ((s.rules.flatMap Rule.clauses).flatMap Clause.uses) := by
  intro n hn v hv
  have hget := (tabulates_kinds hknown).get?_eq_some.mpr hn
  obtain ⟨kind, hkind⟩ := exists_of_mapM hkinds (Assoc.mem_of_get? hv)
  obtain ⟨heq, hnumber⟩ := (ends_checkBinding known n v).result kind hkind
  rw [hget, Option.getD_some] at heq
  exact hnumber heq

/-- Values that were checked can be pinned. -/
theorem ends_pins {known : List (String × VarKind)} {kinds : List VarKind}
    (hkinds : bindings.mapM (fun b => checkBinding known b.1 b.2) = .ok kinds) :
    Ends Error.IsDefinition (∀ r ∈ ·, r.expr.IsProper)
      ((bindings.zip kinds).mapM fun (b, kind) => Rule.pin (.text b.1) b.2 (some kind)) := by
  refine ends_mapM fun ⟨b, kind⟩ hp => Rule.ends_pin b.1 fun hnumeric o ho => ?_
  have hkind := List.forall₂_zip (forall₂_of_mapM hkinds) hp
  obtain ⟨x, hx⟩ := ((ends_checkBinding known b.1 b.2).result kind hkind).2 hnumeric
  rw [hx] at ho
  cases ho

/-- Plugging values into a set of rules goes wrong when a definition is malformed, among them the
bindings, or when an integer is out of range. -/
theorem ends_substitute (hs : s.IsProper) (bindings : Assignment K) (addPins : Bool) :
    Ends (fun e => e.IsDefinition ∨ bindings.Overflows e) IsProper
      (s.substitute bindings addPins) := by
  refine (s.failsOnly_kinds.mono fun _ => .inl).ends.bind fun known hknown => ?_
  refine (failsOnly_checkBindings known bindings).ends.bind fun kinds hkinds => ?_
  have hnumeric := isNumericOn_of_checkBindings hknown hkinds
  -- from here on the values are known to suit their variables
  refine Ends.imp_error (E := Error.IsDefinition) ?_ fun _ => .inl
  refine Ends.bind (P := (∀ r ∈ ·, r.expr.IsProper)) (ends_mapM fun r hr => ?_)
    fun rules hrules => ?_
  · have hmem := (List.mem_filter.mp hr).1
    refine Rule.ends_substitute 0 (hs r hmem) (hnumeric.mono ?_)
    rw [List.flatMap_assoc]
    exact fun u hu => List.mem_flatMap.mpr ⟨r, hmem, hu⟩
  have hlist : ∀ pins, (∀ r ∈ pins, r.expr.IsProper) →
      Ends Error.IsDefinition IsProper (ofList (rules ++ pins)) := fun pins hpins =>
    ends_ofList (List.forall_mem_append.mpr ⟨hrules, hpins⟩)
  refine ends_ite (fun _ => ?_) fun _ => hlist [] (List.forall_mem_nil _)
  exact (ends_pins hkinds).bind hlist

end RuleSet

end RuleAudit
