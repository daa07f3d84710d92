import Mathlib.Data.Set.List
import RuleAudit.Proofs.Dnf.Normalize
import RuleAudit.Proofs.Program.Usage

/-!
# Rules and their normal forms

The normal form of a rule is reduced and says what the rule's expression says, whether it was kept
with the rule or made from the expression. The expression uses all variables of the normal form,
each with one kind, and may use more. Conversely, an expression whose clauses use every variable
with one kind has normal forms, if its clauses can be negated (`Expr.normal_forms_of_negates`). Over
the rationals, where every number equals itself, so does every rule.
-/

namespace RuleAudit

/-! ### Equality -/

namespace Datum

mutual
theorem same_self : ∀ d : Datum Rat, d.same d = true
  | null => by rw [same]
  | bool b => by simp [same, same.sameNumber, toRat?]
  | int n => by simp [same, same.sameNumber, toRat?]
  | real x => by rw [same]; exact beq_self_eq_true x
  | text s => by rw [same]; exact beq_self_eq_true s
  | list items => by rw [same]; exact sameItems_self items
  | mapping entries => by
    rw [same, beq_self_eq_true, Bool.true_and]
    exact sameEntries_of_subset entries fun e he => he

theorem sameItems_self : ∀ items : List (Datum Rat), sameItems items items = true
  | [] => by rw [sameItems]; rfl
  | d :: items => by rw [sameItems, same_self d, sameItems_self items]; rfl

theorem sameEntries_of_subset : ∀ (entries : List (Datum Rat × Datum Rat))
    {all : List (Datum Rat × Datum Rat)}, (∀ e ∈ entries, e ∈ all) →
    sameEntries entries all = true
  | [], _, _ => by rw [sameEntries]
  | (k, d) :: entries, all, h => by
    obtain ⟨hmem, hrest⟩ := List.forall_mem_cons.mp h
    rw [sameEntries, sameEntries_of_subset entries hrest, Bool.and_true]
    exact List.any_eq_true.mpr ⟨_, hmem, by rw [same_self k, same_self d]; rfl⟩
end

end Datum

theorem Clause.beq_self (c : Clause Rat) : (c == c) = true := by
  cases c with
  | linear c =>
    have h : (c.terms == c.terms && c.relation == c.relation && c.rhs == c.rhs) = true := by simp
    exact h
  | membership c =>
    have h : (c == c) = true := beq_self_eq_true c
    exact h
  | foreign d => exact d.same_self

instance : ReflBEq (Clause Rat) where
  rfl {c} := c.beq_self

namespace Expr

mutual
theorem same_self : ∀ e : Expr Rat, e.same e = true
  | atom c => by rw [same]; exact c.beq_self
  | const d => by rw [same]; exact d.same_self
  | and args => by rw [same]; exact sameArgs_self args
  | or args => by rw [same]; exact sameArgs_self args
  | not e => by rw [same]; exact same_self e
  | ifThen a c => by rw [same, same_self a, same_self c]; rfl
  | foreign d => by rw [same]; exact d.same_self

theorem sameArgs_self : ∀ args : List (Expr Rat), sameArgs args args = true
  | [] => by rw [sameArgs]; rfl
  | e :: args => by rw [sameArgs, same_self e, sameArgs_self args]; rfl
end

end Expr

instance : ReflBEq (Rule Rat) where
  rfl {r} := by
    have hexpr : (r.name == r.name && (r.sharesMark r || r.expr.same r.expr)) = true := by
      rw [r.expr.same_self, beq_self_eq_true, Bool.or_true, Bool.and_true]
    exact hexpr

instance : ReflBEq (RuleSet Rat) where
  rfl {s} := by
    have hrules : (s.rules == s.rules) = true := beq_self_eq_true s.rules
    exact hrules

/-! ### Expressions of normal forms -/

namespace Expr

variable {cmp : Comparison} {v : Valuation}

theorem eval_ofTerm (term : Term Rat) :
    (ofTerm term).eval cmp v = term.all (Clause.eval cmp v) := by
  unfold ofTerm
  split
  · rw [eval, List.all_cons, List.all_nil, Bool.and_true]
  · rw [eval, evalAll_eq, List.all_map]
    exact List.all_congr rfl fun c => by rw [Function.comp_apply, eval]

/-- The expression that is read off a normal form says the same. -/
theorem eval_ofDnf (d : Dnf Rat) : (ofDnf d).eval cmp v = d.eval cmp v := by
  unfold ofDnf
  by_cases hempty : d.isEmpty = true
  · rw [if_pos hempty, List.isEmpty_iff.mp hempty]
    rfl
  rw [if_neg hempty]
  by_cases htrue : d.any (·.isEmpty) = true
  · rw [if_pos htrue, eq_comm]
    obtain ⟨term, hterm, hnil⟩ := List.any_eq_true.mp htrue
    rw [List.isEmpty_iff] at hnil
    exact Dnf.eval_eq_true.mpr ⟨term, hterm, by simp [hnil]⟩
  rw [if_neg htrue]
  split
  · rw [eval_ofTerm, Dnf.eval, List.any_cons, List.any_nil, Bool.or_false]
  · rw [eval, evalAny_eq, List.any_map]
    exact List.any_congr rfl fun term => eval_ofTerm term

end Expr

section Leaves

variable {K : Type} [Scalar K]

namespace Expr

theorem leavesEach_eq (es : List (Expr K)) : leavesEach es = es.flatMap leaves := by
  induction es with
  | nil => rfl
  | cons e es ih => rw [leavesEach, ih, List.flatMap_cons]

theorem leaves_ofTerm (term : Term K) : (ofTerm term).leaves = term.map .inl := by
  unfold ofTerm
  split
  · rfl
  · rw [leaves, leavesEach_eq, List.flatMap_map]
    exact List.flatMap_pure_eq_map _ _

/-- The leaves of an expression that is read off a normal form are clauses of it. -/
theorem leaves_ofDnf (d : Dnf K) : (ofDnf d).leaves ⊆ d.flatten.map .inl := by
  unfold ofDnf
  split
  · exact List.nil_subset _
  · split
    · exact List.nil_subset _
    · split
      · rw [leaves_ofTerm, List.flatten_cons, List.flatten_nil, List.append_nil]
        exact List.Subset.refl _
      · rw [leaves, leavesEach_eq, List.flatMap_map]
        intro leaf hleaf
        obtain ⟨term, hterm, hmem⟩ := List.mem_flatMap.mp hleaf
        rw [leaves_ofTerm] at hmem
        obtain ⟨c, hc, rfl⟩ := List.mem_map.mp hmem
        exact List.mem_map_of_mem (List.mem_flatten.mpr ⟨term, hterm, hc⟩)

theorem uses_ofDnf_subset (d : Dnf K) : (ofDnf d).uses ⊆ d.flatten.flatMap Clause.uses := by
  intro u hu
  obtain ⟨leaf, hleaf, hu⟩ := List.mem_flatMap.mp hu
  obtain ⟨c, hc, rfl⟩ := List.mem_map.mp (leaves_ofDnf d hleaf)
  exact List.mem_flatMap.mpr ⟨c, hc, hu⟩

/-- All clauses of a reduced normal form are leaves of the expression that is read off it. -/
theorem clauses_subset_leaves_ofDnf {d : Dnf K} (h : d.IsReduced) :
    d.flatten.map .inl ⊆ (ofDnf d).leaves := by
  rcases h.eq_verum_or with rfl | hne
  · exact List.nil_subset _
  have hany : ¬ d.any (·.isEmpty) = true := by
    rw [List.any_eq_true]
    rintro ⟨term, hterm, hnil⟩
    exact hne term hterm (List.isEmpty_iff.mp hnil)
  intro leaf hleaf
  obtain ⟨c, hc, rfl⟩ := List.mem_map.mp hleaf
  obtain ⟨term, hterm, hmem⟩ := List.mem_flatten.mp hc
  have hempty : ¬ d.isEmpty = true := by
    rw [List.isEmpty_iff]
    exact List.ne_nil_of_mem hterm
  unfold ofDnf
  rw [if_neg hempty, if_neg hany]
  split
  · obtain rfl := List.mem_singleton.mp hterm
    rw [leaves_ofTerm]
    exact List.mem_map_of_mem hmem
  · rw [leaves, leavesEach_eq, List.flatMap_map]
    refine List.mem_flatMap.mpr ⟨term, hterm, ?_⟩
    rw [leaves_ofTerm]
    exact List.mem_map_of_mem hmem

end Expr

end Leaves

/-! ### Expressions that have normal forms -/

section Existence

variable {K : Type} [Scalar K] {e : Expr K} {kinds : String → VarKind}

/-- The leaves of an expression are clauses that use their variables with given kinds. -/
def Expr.HasKinds (kinds : String → VarKind) (e : Expr K) : Prop :=
  ∀ leaf ∈ e.leaves, ∃ c : Clause K, leaf = .inl c ∧ c.HasKinds kinds

namespace Expr

/-- The leaves can be met one after the other. -/
theorem exists_census (rule : Datum K) (h : e.HasKinds kinds) :
    ∃ census, e.leaves.foldlM (Census.meet rule) .start = .ok census := by
  obtain ⟨clauses, hclauses⟩ : e.leaves ∈ Set.range (List.map Sum.inl) := by
    rw [Set.range_list_map]
    intro leaf hleaf
    obtain ⟨c, rfl, -⟩ := h leaf hleaf
    exact ⟨c, rfl⟩
  have hkinds : ∀ c ∈ clauses, c.HasKinds kinds := fun c hc => by
    obtain ⟨_, ⟨⟩, hkinds⟩ := h (.inl c) (hclauses ▸ List.mem_map_of_mem hc)
    exact hkinds
  obtain ⟨census, hcensus⟩ : ∃ census, clauses.foldlM (Census.register rule) .start = .ok census :=
    Census.exists_foldlM_register hkinds
  exact ⟨census, by rw [← hclauses, List.foldlM_map]; exact hcensus⟩

/-- An expression of one kind for each variable has normal forms when its clauses can be negated. -/
theorem normal_forms_of_negates (rule : Datum K) (h : e.HasKinds kinds)
    (hnegate : ∀ c, .inl c ∈ e.leaves → c.IsProper → c.negate = .ok c.opposite) :
    e.toDnf rule = .ok (e.form true) ∧ e.negate rule = .ok (e.form false) := by
  obtain ⟨census, hcensus⟩ := exists_census rule h
  constructor
  · rw [toDnf, normalize_of_negates e _ _ hnegate, hcensus]
    rfl
  · rw [negate, normalize_of_negates e _ _ hnegate, hcensus]
    rfl

end Expr

end Existence

/-- An expression that has a normal form uses every variable with one kind. -/
theorem Expr.exists_agrees_of_toDnf {e : Expr Rat} {rule : Datum Rat} {d : Dnf Rat}
    (h : e.toDnf rule = .ok d) : ∃ kinds, Agrees kinds e.uses := by
  rw [toDnf, normalize_eq] at h
  obtain ⟨result, hresult, -⟩ := Outcome.bind_eq_ok.mp h
  obtain ⟨census, hcensus, -⟩ := Outcome.bind_eq_ok.mp hresult
  suffices htable : Tabulates census.kinds e.uses from htable.exists_agrees
  refine Outcome.foldlM_induction (fun seen (census : Census) => Tabulates census.kinds
    (seen.flatMap (Sum.elim Clause.uses fun _ => []))) hcensus .empty
    fun seen leaf census next hseen hnext => ?_
  obtain ⟨c, rfl, -⟩ := Census.isProper_of_meet hnext
  rw [List.flatMap_append, List.flatMap_singleton]
  exact Census.tabulates_register hseen hnext

/-! ### Rules -/

/-- Nothing in a normal form of proper clauses cannot be compared. -/
theorem Dnf.checkComparable_eq {K : Type} [Scalar K] {d : Dnf K} (hd : d.Within Clause.IsProper) :
    d.checkComparable = .ok () := by
  have hnone : Dnf.uncomparable? d = none := by
    induction d with
    | nil => rfl
    | cons term d ih =>
      have hrest := ih fun t ht => hd t (List.mem_cons_of_mem _ ht)
      rw [Dnf.uncomparable?]
      split
      · exact hrest
      · rfl
      · next kept hne hkept =>
        have hproper : ∀ c ∈ kept, c.IsProper := fun c hc => by
          rw [Dnf.reduceTerm] at hkept
          split at hkept
          · cases hkept
          · obtain rfl := Option.some.inj hkept
            exact hd term List.mem_cons_self c (List.mem_filter.mp hc).1
        refine (congrArg (· <|> _) (List.findSome?_eq_none_iff.mpr fun c hc => ?_)).trans hrest
        have hc := hproper c hc
        cases c <;> first | rfl | cases hc
  rw [Dnf.checkComparable, hnone]

namespace Rule

section Forms

variable {K : Type} [Scalar K] {r : Rule K} {d : Dnf K}

/-- A normal form was kept with the rule, or is made from the expression. -/
theorem dnf_cases (h : r.dnf = .ok d) :
    d.IsReduced ∧ r.expr = Expr.ofDnf d ∨ r.expr.toDnf (.text r.name) = .ok d := by
  rw [dnf] at h
  split at h
  · next kept hkept =>
    obtain rfl := Except.ok.inj h
    exact .inl (r.read_off kept hkept)
  · exact .inr h

theorem isReduced (h : r.dnf = .ok d) : d.IsReduced := by
  rcases dnf_cases h with ⟨hreduced, -⟩ | hmade
  · exact hreduced
  · exact (Expr.hasForm_of_toDnf hmade).isReduced

/-- The expression of a rule with a normal form of proper clauses has no other leaves. -/
theorem isProper (h : r.dnf = .ok d) (hd : d.Within Clause.IsProper) : r.expr.IsProper := by
  rcases dnf_cases h with ⟨-, hexpr⟩ | hmade
  · intro leaf hleaf
    rw [hexpr] at hleaf
    obtain ⟨c, hc, rfl⟩ := List.mem_map.mp (Expr.leaves_ofDnf d hleaf)
    obtain ⟨term, hterm, hmem⟩ := List.mem_flatten.mp hc
    exact ⟨c, rfl, hd term hterm c hmem⟩
  · exact Expr.isProper_of_toDnf hmade

/-- The normal form of a rule is made of proper clauses when its expression is. -/
theorem within_isProper (h : r.dnf = .ok d) (hr : r.expr.IsProper) :
    d.Within Clause.IsProper := by
  rcases dnf_cases h with ⟨hreduced, hexpr⟩ | hmade
  · intro term hterm c hc
    have hleaf := Expr.clauses_subset_leaves_ofDnf hreduced
      (List.mem_map_of_mem (f := Sum.inl) (List.mem_flatten.mpr ⟨term, hterm, hc⟩))
    obtain ⟨_, ⟨⟩, hproper⟩ := hr _ (hexpr ▸ hleaf)
    exact hproper
  · exact (Expr.hasForm_of_toDnf hmade).within

/-- A rule that always holds has no clause. -/
theorem clauses_eq_nil_of_tautology (hd : r.dnf = .ok d) (h : d.any (·.isEmpty) = true) :
    r.clauses = [] := by
  have hverum : d = Dnf.verum := by
    refine (isReduced hd).eq_verum_or.resolve_right fun hne => ?_
    obtain ⟨term, hterm, hempty⟩ := List.any_eq_true.mp h
    exact hne term hterm (List.isEmpty_iff.mp hempty)
  rw [clauses_eq hd, hverum]
  rfl

theorem isTautology_eq (hd : r.dnf = .ok d) : r.isTautology = .ok (d.any (·.isEmpty)) := by
  rw [isTautology, hd]
  rfl

theorem exists_dnf_of_isTautology (h : r.isTautology = .ok true) :
    ∃ d, r.dnf = .ok d ∧ r.clauses = [] := by
  obtain ⟨d, hd, hempty⟩ := Outcome.bind_eq_ok.mp h
  exact ⟨d, hd, clauses_eq_nil_of_tautology hd (Except.ok.inj hempty)⟩

/-- Rules that always hold have no variables to agree on. -/
theorem kindConsistent_of_isTautology {rules : List (Rule K)}
    (h : ∀ r ∈ rules, r.isTautology = .ok true) : KindConsistent rules := by
  refine ⟨fun _ => .numeric, fun r hr => ?_⟩
  obtain ⟨d, hd, hclauses⟩ := exists_dnf_of_isTautology (h r hr)
  refine ⟨d, hd, Dnf.within_iff_flatten.mpr fun c hc => ?_⟩
  rw [← clauses_eq hd, hclauses] at hc
  cases hc

section Making

variable {name : String}

theorem readName_eq (h : ¬ Text.Blank name) : readName (K := K) (.text name) = .ok ⟨name, h⟩ :=
  dif_pos h

/-- A rule made from an expression. -/
theorem exists_make (e : Expr K) (hname : ¬ Text.Blank name) :
    ∃ r, make (.text name) e = .ok r ∧ r.name = name ∧ r.expr = e ∧ r.normal? = none := by
  refine ⟨⟨name, e, none, hname, by simp, none⟩, ?_, rfl, rfl, rfl⟩
  rw [make, readName_eq hname]
  rfl

theorem exists_renamed (r : Rule K) (hname : ¬ Text.Blank name) :
    ∃ q, r.renamed (.text name) = .ok q ∧ q.name = name ∧ q.expr = r.expr := by
  refine ⟨{ r with name, named := hname }, ?_, rfl, rfl⟩
  rw [renamed, readName_eq hname]
  rfl

/-- A rule made from a normal form of proper clauses. -/
theorem exists_ofDnf (hname : ¬ Text.Blank name) (hd : d.Within Clause.IsProper) :
    ∃ r, ofDnf (.text name) d = .ok r ∧ r.name = name ∧ r.dnf = .ok d.reduce ∧
      r.expr = Expr.ofDnf d.reduce := by
  refine ⟨⟨name, Expr.ofDnf d.reduce, some d.reduce, hname,
    by rintro _ ⟨⟩; exact ⟨⟨d, rfl⟩, rfl⟩, none⟩, ?_, rfl, rfl, rfl⟩
  rw [ofDnf, Dnf.checkComparable_eq hd, readName_eq hname]
  rfl

end Making

end Forms

variable {r : Rule Rat} {d : Dnf Rat}

/-- The normal form of a rule says what its expression says. -/
theorem eval_dnf (h : r.dnf = .ok d) (v : Valuation) : d.eval .exact v = r.expr.eval .exact v := by
  rcases dnf_cases h with ⟨-, hexpr⟩ | hmade
  · rw [hexpr, Expr.eval_ofDnf]
  · rw [Expr.eq_form_of_toDnf hmade, Expr.eval_form _ _ (Expr.isProper_of_toDnf hmade)]
    simp

/-- The expression of a rule uses all that its normal form does. -/
theorem uses_dnf_subset (h : r.dnf = .ok d) : d.flatten.flatMap Clause.uses ⊆ r.expr.uses := by
  intro u hu
  obtain ⟨c, hc, hu⟩ := List.mem_flatMap.mp hu
  rcases dnf_cases h with ⟨hreduced, hexpr⟩ | hmade
  · rw [hexpr]
    have hleaf := Expr.clauses_subset_leaves_ofDnf hreduced (List.mem_map_of_mem (f := Sum.inl) hc)
    exact List.mem_flatMap.mpr ⟨_, hleaf, hu⟩
  · obtain ⟨term, hterm, hmem⟩ := List.mem_flatten.mp hc
    rw [Expr.eq_form_of_toDnf hmade] at hterm
    exact (r.expr.within_form true (Expr.isProper_of_toDnf hmade) term hterm c hmem).2 hu

/-- The expression of a rule uses every variable with one kind. -/
theorem exists_agrees {kinds : String → VarKind} (h : r.dnf = .ok d)
    (hd : d.Within (Clause.HasKinds kinds)) : ∃ kinds, Agrees kinds r.expr.uses := by
  rcases dnf_cases h with ⟨-, hexpr⟩ | hmade
  · refine ⟨kinds, fun u hu => ?_⟩
    rw [hexpr] at hu
    obtain ⟨leaf, hleaf, hu⟩ := List.mem_flatMap.mp hu
    obtain ⟨c, hc, rfl⟩ := List.mem_map.mp (Expr.leaves_ofDnf d hleaf)
    exact (Dnf.within_iff_flatten.mp hd c hc).2 u hu
  · exact Expr.exists_agrees_of_toDnf hmade

end Rule

end RuleAudit
