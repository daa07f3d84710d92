import RuleAudit.Proofs.Dnf.Polarity
import RuleAudit.Proofs.Program.Names
import RuleAudit.Proofs.Rule
import RuleAudit.Proofs.Signs
import RuleAudit.Query

/-!
# Rules in the words of other rules

Queries ask about rules that they make themselves: opposites of rules, single terms of rules, rules
with values plugged in. A lexicon says which kind every variable has and which labels may be
mentioned for it. The rules that are made from rules that fit a lexicon fit it too, so they can be
asked about together (`kindConsistent_of_fits`), and when the labels of the lexicon stay apart, so
do the names of all decision variables (`labelsApart_of_fits`).
-/

namespace RuleAudit

/-! ### Lexicons -/

/-- The kind of every variable, and the labels that may be mentioned for it. -/
structure Lexicon where
  kinds : String → VarKind
  mentions : String → String → Prop

/-- The labels of different variables never run together in the same text. -/
def Lexicon.Apart (L : Lexicon) : Prop :=
  ∀ v l w m, L.mentions v l → L.mentions w m → v ++ "=" ++ l = w ++ "=" ++ m → v = w

variable {L : Lexicon}

namespace Clause

/-- A clause uses its variables with the kinds of a lexicon and mentions only labels in it. -/
def Fits (L : Lexicon) (c : Clause Rat) : Prop :=
  c.HasKinds L.kinds ∧ ∀ v l, c.Mentions v l → L.mentions v l

/-- Proper clauses are equal when they compare so. -/
theorem eq_of_beq {c d : Clause Rat} (hc : c.IsProper) (h : (c == d) = true) : c = d := by
  have hdrop := dropSign_eq_of_beq hc h
  rwa [dropSign_eq_self, dropSign_eq_self] at hdrop

/-- The opposite of a clause mentions what the clause mentions. -/
theorem within_opposite_mentions (c : Clause Rat) :
    c.opposite.Within fun o => ∀ v l, o.Mentions v l ↔ c.Mentions v l := by
  intro term hterm o ho v l
  cases c with
  | linear c =>
    obtain ⟨r, -, rfl⟩ := List.mem_map.mp hterm
    obtain rfl := List.mem_singleton.mp ho
    exact Iff.rfl
  | membership c =>
    obtain rfl := List.mem_singleton.mp hterm
    obtain rfl := List.mem_singleton.mp ho
    exact Iff.rfl
  | foreign d => cases hterm

/-- A property of proper clauses that hangs on what they use and mention is unsigned. -/
theorem unsigned_of {P : Clause Rat → Prop} (hproper : ∀ c, P c → c.IsProper)
    (h : ∀ c d : Clause Rat, c.IsProper → d.IsProper → d.uses = c.uses →
      (∀ v l, d.Mentions v l ↔ c.Mentions v l) → (P c ↔ P d)) : Unsigned P where
  congr c d hcd := by
    by_cases hc : c.IsProper
    · rw [eq_of_beq hc hcd]
    · refine iff_of_false (fun hPc => hc (hproper c hPc)) fun hPd => hc ?_
      have hd := hproper d hPd
      cases c <;> cases d <;> first | exact trivial | cases hcd | cases hd
  opposite c hc := by
    have hopposite : c.opposite.Within fun o => P c ↔ P o := fun term hterm o ho => by
      obtain ⟨hproper, huses⟩ := c.within_opposite term hterm o ho
      exact h c o hc hproper huses (c.within_opposite_mentions term hterm o ho)
    constructor
    · exact fun hPc term hterm o ho => (hopposite term hterm o ho).mp hPc
    · intro hall
      obtain ⟨hne, hnil⟩ := opposite_ne_nil hc
      obtain ⟨term, hterm⟩ := List.exists_mem_of_ne_nil _ hne
      obtain ⟨o, ho⟩ := List.exists_mem_of_ne_nil term fun h => hnil (h ▸ hterm)
      exact (hopposite term hterm o ho).mpr (hall term hterm o ho)

theorem unsigned_fits (L : Lexicon) : Unsigned (Fits L) :=
  unsigned_of (fun _ hc => hc.1.1) fun c d hc hd huses hmentions => by
    simp only [Fits, HasKinds, huses, hmentions, hc, hd]

/-- The clause is about a label. -/
def IsMembership : Clause Rat → Prop
  | membership _ => True
  | _ => False

instance (c : Clause Rat) : Decidable c.IsMembership :=
  match c with
  | membership _ => .isTrue trivial
  | linear _ => .isFalse id
  | foreign _ => .isFalse id

theorem unsigned_isMembership : Unsigned IsMembership where
  congr c d hcd := by
    cases c <;> cases d <;> first | exact Iff.rfl | cases hcd
  opposite c hc := by
    cases c with
    | linear c =>
      refine iff_of_false id fun h => ?_
      obtain ⟨hne, hnil⟩ := opposite_ne_nil hc
      obtain ⟨term, hterm⟩ := List.exists_mem_of_ne_nil _ hne
      obtain ⟨o, ho⟩ := List.exists_mem_of_ne_nil term fun h => hnil (h ▸ hterm)
      have hmem := h term hterm o ho
      obtain ⟨r, -, rfl⟩ := List.mem_map.mp hterm
      obtain rfl := List.mem_singleton.mp ho
      exact hmem
    | membership c => exact iff_of_true trivial (by simp [Dnf.Within, opposite, IsMembership])
    | foreign d => cases hc

end Clause

/-- The normal form of a rule fits a lexicon. -/
def Rule.Fits (L : Lexicon) (r : Rule Rat) : Prop :=
  ∃ d, r.dnf = .ok d ∧ d.Within (Clause.Fits L)

section Rules

variable {rules : List (Rule Rat)}

theorem Rule.Fits.within {r : Rule Rat} {d : Dnf Rat} (h : r.Fits L) (hd : r.dnf = .ok d) :
    d.Within (Clause.Fits L) := by
  obtain ⟨d', hd', hwithin⟩ := h
  obtain rfl := Except.ok.inj (hd'.symm.trans hd)
  exact hwithin

theorem kindConsistent_of_fits (h : ∀ r ∈ rules, r.Fits L) : KindConsistent rules := by
  refine ⟨L.kinds, fun r hr => ?_⟩
  obtain ⟨d, hd, hwithin⟩ := h r hr
  exact ⟨d, hd, fun term hterm c hc => (hwithin term hterm c hc).1⟩

/-- What rules that fit a lexicon mention is in it. -/
theorem Mentioned.of_fits (h : ∀ r ∈ rules, r.Fits L) {v l : String} (hm : Mentioned rules v l) :
    L.mentions v l := by
  obtain ⟨c, hc, hm⟩ := hm
  obtain ⟨r, hr, hc⟩ := List.mem_flatMap.mp hc
  obtain ⟨d, hd, hwithin⟩ := h r hr
  rw [r.clauses_eq hd] at hc
  exact (Dnf.within_iff_flatten.mp hwithin c hc).2 v l hm

theorem labelsApart_of_fits (hL : L.Apart) (h : ∀ r ∈ rules, r.Fits L) : LabelsApart rules :=
  fun v l w m hl hm => hL v l w m (Mentioned.of_fits h hl) (Mentioned.of_fits h hm)

/-- Rules that agree on kinds fit the lexicon of all that they mention. -/
theorem KindConsistent.exists_lexicon (h : KindConsistent rules) :
    ∃ L : Lexicon, (∀ r ∈ rules, r.Fits L) ∧ L.mentions = Mentioned rules := by
  obtain ⟨kinds, hkinds⟩ := h
  refine ⟨⟨kinds, Mentioned rules⟩, fun r hr => ?_, rfl⟩
  obtain ⟨d, hd, hwithin⟩ := hkinds r hr
  refine ⟨d, hd, fun term hterm c hc => ⟨hwithin term hterm c hc, fun v l hm => ?_⟩⟩
  refine ⟨c, List.mem_flatMap.mpr ⟨r, hr, ?_⟩, hm⟩
  rw [r.clauses_eq hd]
  exact List.mem_flatten.mpr ⟨term, hterm, hc⟩

end Rules

/-! ### Normalising expressions of fitting clauses -/

/-- An expression has normal forms when its leaves are clauses that use every variable with one
kind. -/
theorem Expr.normal_forms_eq {e : Expr Rat} {kinds : String → VarKind} (rule : Datum Rat)
    (h : ∀ leaf ∈ e.leaves, ∃ c : Clause Rat, leaf = .inl c ∧ c.HasKinds kinds) :
    e.toDnf rule = .ok (e.form true) ∧ e.negate rule = .ok (e.form false) :=
  normal_forms_of_negates rule h fun _ _ hc => Clause.negate_eq hc

/-! ### Making rules -/

namespace Rule

variable {r : Rule Rat} {name : String} {d : Dnf Rat}

/-- Rules that are made for a query have a tilde in front. -/
theorem not_blank_tilde (name : String) : ¬ Text.Blank ("~" ++ name) := by
  simp [Text.Blank, Text.isBlank, Text.inRanges, Text.blankRanges]

/-- A rule made from a clause. -/
theorem exists_make_atom {c : Clause Rat} {kinds : String → VarKind} (hname : ¬ Text.Blank name)
    (hc : c.HasKinds kinds) (hopen : c.constant? = none) :
    ∃ r, make (.text name) (.atom c) = .ok r ∧ r.name = name ∧ r.dnf = .ok [[c]] ∧
      r.expr = .atom c := by
  obtain ⟨r, hr, hrname, hexpr, hnormal⟩ := exists_make (.atom c) hname
  refine ⟨r, hr, hrname, ?_, hexpr⟩
  have hforms := Expr.normal_forms_eq (e := .atom c) (.text r.name) fun leaf hleaf =>
    ⟨c, List.mem_singleton.mp hleaf, hc⟩
  have hform : (Expr.atom c).form true = [[c]] := by
    simp [Expr.form, Dnf.reduce, Dnf.reduceTerm, hopen, List.eraseDups_cons]
  rw [dnf, hnormal, hexpr]
  exact hforms.1.trans (congrArg _ hform)

/-- A rule with a normal form has a negation; the normal form may have been kept, so it need not be
that of the expression, but it is made of the same clauses. -/
private theorem exists_negation {kinds : String → VarKind} (hd : r.dnf = .ok d)
    (hwithin : d.Within (Clause.HasKinds kinds)) :
    r.expr.negate (.text r.name) = .ok (r.expr.form false) ∧
      ∀ P : Clause Rat → Prop, Clause.Unsigned P → d.Within P → (r.expr.form true).Within P := by
  have hproper : d.Within Clause.IsProper := fun term hterm c hc => (hwithin term hterm c hc).1
  rcases dnf_cases hd with ⟨-, hofDnf⟩ | hmade
  · have hleaves : ∀ leaf ∈ r.expr.leaves, ∃ c ∈ d.flatten, leaf = .inl c := by
      intro leaf hleaf
      rw [hofDnf] at hleaf
      obtain ⟨c, hc, rfl⟩ := List.mem_map.mp (Expr.leaves_ofDnf d hleaf)
      exact ⟨c, hc, rfl⟩
    have hkinds : ∀ leaf ∈ r.expr.leaves, ∃ c : Clause Rat, leaf = .inl c ∧ c.HasKinds kinds :=
      fun leaf hleaf => by
        obtain ⟨c, hc, rfl⟩ := hleaves leaf hleaf
        exact ⟨c, rfl, Dnf.within_iff_flatten.mp hwithin c hc⟩
    refine ⟨(Expr.normal_forms_eq _ hkinds).2, fun P hP hdP => ?_⟩
    have hclauses : ∀ c, .inl c ∈ r.expr.leaves → P c ∧ c.IsProper := fun c hc => by
      obtain ⟨_, hc, ⟨⟩⟩ := hleaves _ hc
      exact ⟨Dnf.within_iff_flatten.mp hdP c hc, Dnf.within_iff_flatten.mp hproper c hc⟩
    have hform := Expr.within_form_of_leaves (P := fun c => P c ∧ c.IsProper)
      (fun c hc term hterm o ho => ⟨(hP.opposite c hc.2).mp hc.1 term hterm o ho,
        (c.within_opposite term hterm o ho).1⟩) r.expr true hclauses
    exact fun term hterm c hc => (hform term hterm c hc).1
  · refine ⟨Expr.negate_eq_of_toDnf hmade, fun P _ hdP => ?_⟩
    rw [← Expr.eq_form_of_toDnf hmade]
    exact hdP

/-- The opposite of a rule that fits a lexicon fits it, and is true where the rule is false. -/
theorem Fits.exists_opposite (h : r.Fits L) :
    ∃ n, r.opposite = .ok n ∧ n.Fits L ∧
      (∀ v, n.expr.eval .exact v = !r.expr.eval .exact v) ∧
      ((∀ c ∈ r.clauses, c.IsMembership) → ∀ c ∈ n.clauses, c.IsMembership) := by
  obtain ⟨d, hd, hwithin⟩ := h
  have hproper : d.Within Clause.IsProper := fun term hterm c hc => (hwithin term hterm c hc).1.1
  have hexpr : r.expr.IsProper := r.isProper hd hproper
  obtain ⟨hnegate, hforms⟩ := exists_negation hd fun term hterm c hc => (hwithin term hterm c hc).1
  have hnegation (P : Clause Rat → Prop) (hP : Clause.Unsigned P) (hdP : d.Within P) :
      (r.expr.form false).Within P :=
    (Expr.within_form_iff hP hexpr).mp (hforms P hP hdP)
  have hfits := hnegation _ (Clause.unsigned_fits L) hwithin
  obtain ⟨n, hn, -, hdnf, -⟩ := exists_ofDnf (not_blank_tilde r.name)
    (d := r.expr.form false) fun term hterm c hc => (hfits term hterm c hc).1.1
  rw [(r.expr.form_isReduced false).reduce_eq] at hdnf
  refine ⟨n, ?_, ⟨_, hdnf, hfits⟩, fun v => ?_, fun hmembership => ?_⟩
  · rw [opposite, negation, hnegate]
    exact hn
  · rw [← n.eval_dnf hdnf, Expr.eval_form _ _ hexpr]
    simp
  · rw [clauses_eq hd] at hmembership
    rw [clauses_eq hdnf]
    exact Dnf.within_iff_flatten.mp
      (hnegation _ Clause.unsigned_isMembership (Dnf.within_iff_flatten.mpr hmembership))

end Rule

end RuleAudit
