import RuleAudit.Dnf.Normalize
import RuleAudit.Proofs.Dnf.Reduce

/-!
# Normal forms say what their expressions say

Normalising an expression does two things at once: it meets the leaves from left to right, which
can fail, and it builds the normal form, which cannot unless a clause that is negated fails the
checks of its numbers. `Expr.form` is the second part alone: whatever is normalised is normalised to
it (`Expr.form_of_normalize`), and `Expr.normalize_of_negates` splits the two. The form of an
expression, or of its negation, is true at a valuation when the expression is true, or false
(`Expr.eval_form`), by induction on the expression with the polarity left free.
-/

namespace RuleAudit

/-! ### Opposite clauses -/

section Opposite

variable {K : Type} [Scalar K]

section Terms

variable (c : LinearClause K) (keep : String → Bool)

theorem LinearClause.ascending_filter :
    (c.terms.filter fun t => keep t.1).Pairwise fun s t => s.1 < t.1 :=
  c.ascending.filter _

theorem LinearClause.nonzero_filter :
    ∀ t ∈ c.terms.filter fun t => keep t.1, (t.2 == 0) = false :=
  fun t ht => c.nonzero t (List.mem_filter.mp ht).1

theorem LinearClause.named_filter : ∀ t ∈ c.terms.filter fun t => keep t.1, t.1 ≠ "" :=
  fun t ht => c.named t (List.mem_filter.mp ht).1

end Terms

/-- The clause over some of its terms, with another relation and right side. -/
def LinearClause.restrict (c : LinearClause K) (keep : String → Bool) (relation : Relation)
    (rhs : K) : LinearClause K where
  terms := c.terms.filter fun t => keep t.1
  relation := relation
  rhs := rhs
  ascending := c.ascending_filter keep
  nonzero := c.nonzero_filter keep
  named := c.named_filter keep

/-- With all its terms, a clause keeps its left side. -/
theorem LinearClause.terms_restrict (c : LinearClause K) (relation : Relation) (rhs : K) :
    (c.restrict (fun _ => true) relation rhs).terms = c.terms :=
  List.filter_true _

/-- The disjunction that says the opposite of a clause. -/
def Clause.opposite : Clause K → Dnf K
  | linear c => c.relation.negate.map fun r => [linear (c.restrict (fun _ => true) r c.rhs)]
  | membership c => [[membership c.negate]]
  | foreign _ => []

/-- The opposite of a clause uses its variables as the clause does. -/
theorem Clause.within_opposite (c : Clause K) :
    c.opposite.Within fun o => o.IsProper ∧ o.uses = c.uses := by
  intro term hterm o ho
  cases c with
  | linear c =>
    obtain ⟨r, -, rfl⟩ := List.mem_map.mp hterm
    obtain rfl := List.mem_singleton.mp ho
    exact ⟨trivial, by rw [uses, uses, LinearClause.vars, LinearClause.vars, c.terms_restrict]⟩
  | membership c =>
    obtain rfl := List.mem_singleton.mp hterm
    obtain rfl := List.mem_singleton.mp ho
    exact ⟨trivial, rfl⟩
  | foreign d => cases hterm

/-- Finite numbers pass every check again. -/
theorem LinearClause.rebuild_of_isFinite {c : LinearClause K} {rhs : K} (keep : String → Bool)
    (relation : Relation) (hterms : ∀ t ∈ c.terms, Scalar.isFinite t.2 = true)
    (hrhs : Scalar.isFinite rhs = true) :
    c.rebuild keep relation rhs = .ok (c.restrict keep relation rhs) := by
  rw [rebuild]
  refine Outcome.bind_eq_ok.mpr ⟨_, Outcome.forIn_eq_ok fun t ht => ?_,
    Outcome.bind_eq_ok.mpr ⟨rhs, if_pos hrhs, rfl⟩⟩
  exact Outcome.bind_eq_ok.mpr ⟨t.2, if_pos (hterms t (List.mem_filter.mp ht).1), rfl⟩

/-- Numbers that pass are not changed. -/
theorem LinearClause.eq_restrict_of_rebuild {c d : LinearClause K} {keep : String → Bool}
    {relation : Relation} {rhs : K} (h : c.rebuild keep relation rhs = .ok d) :
    d = c.restrict keep relation rhs := by
  rw [rebuild] at h
  obtain ⟨_, -, h⟩ := Outcome.bind_eq_ok.mp h
  obtain ⟨rhs', hrhs, h⟩ := Outcome.bind_eq_ok.mp h
  rw [Quantity.check] at hrhs
  split at hrhs
  · obtain rfl := Except.ok.inj hrhs
    exact (Except.ok.inj h).symm
  · cases hrhs

theorem Clause.negate_linear {c : LinearClause K}
    (hterms : ∀ t ∈ c.terms, Scalar.isFinite t.2 = true) (hrhs : Scalar.isFinite c.rhs = true) :
    (linear c).negate = .ok (linear c).opposite := by
  rw [negate, opposite]
  refine Outcome.mapM_eq_map fun r _ => ?_
  rw [LinearClause.rebuild_of_isFinite _ _ hterms hrhs]
  rfl

theorem Clause.eq_opposite_of_negate {c : Clause K} {d : Dnf K} (h : c.negate = .ok d) :
    d = c.opposite := by
  cases c with
  | linear c =>
    have hall := Outcome.map_eq_of_mapM (g := id) (k := fun r =>
      [linear (c.restrict (fun _ => true) r c.rhs)]) h fun r term hterm => by
        obtain ⟨rebuilt, hrebuilt, hterm⟩ := Outcome.bind_eq_ok.mp hterm
        obtain rfl := LinearClause.eq_restrict_of_rebuild hrebuilt
        exact (Except.ok.inj hterm).symm
    rwa [List.map_id] at hall
  | membership c => exact (Except.ok.inj h).symm
  | foreign d => cases h

end Opposite

theorem LinearClause.rebuild_eq (c : LinearClause Rat) (keep : String → Bool)
    (relation : Relation) (rhs : Rat) :
    c.rebuild keep relation rhs = .ok (c.restrict keep relation rhs) :=
  rebuild_of_isFinite keep relation (fun _ _ => rfl) rfl

namespace Clause

variable {c : Clause Rat}

theorem negate_eq (hc : c.IsProper) : c.negate = .ok c.opposite := by
  cases c with
  | linear c => exact negate_linear (fun _ _ => rfl) rfl
  | membership c => rfl
  | foreign d => cases hc

/-- One of the negated relations holds exactly where the relation fails. -/
private theorem any_negate (r : Relation) (x y : Rat) :
    (r.negate.any fun s => Comparison.exact s x y) = !Comparison.exact r x y := by
  cases r <;> simp only [Relation.negate, List.any_cons, List.any_nil, Bool.or_false,
    Comparison.exact_eq]
  case eq =>
    -- an equality fails on either of two sides
    rw [Bool.eq_iff_iff]
    simp only [Bool.or_eq_true, decide_eq_true_eq, Bool.not_eq_true', decide_eq_false_iff_not]
    exact ne_iff_lt_or_gt.symm
  all_goals simp [← not_le]

/-- The opposite of a clause is true when the clause is false. -/
theorem eval_opposite (hc : c.IsProper) (v : Valuation) :
    c.opposite.eval .exact v = !c.eval .exact v := by
  cases c with
  | linear c =>
    have hsum (r : Relation) : (c.restrict (fun _ => true) r c.rhs).sumAt v = c.sumAt v := by
      rw [LinearClause.sumAt, LinearClause.sumAt, c.terms_restrict]
    rw [eval, ← any_negate, opposite, Dnf.eval, List.any_map]
    -- each negated relation is a term of its own, over the same sum
    refine List.any_congr rfl fun r => ?_
    rw [Function.comp_apply, List.all_cons, List.all_nil, Bool.and_true, eval, hsum]
    rfl
  | membership c =>
    have hlists : c.negate.lists v = c.lists v := rfl
    have hnegated : c.negate.negated = !c.negated := rfl
    rw [opposite, Dnf.eval, List.any_cons, List.any_nil, List.all_cons, List.all_nil, eval, eval,
      hlists, hnegated]
    cases c.lists v <;> cases c.negated <;> rfl
  | foreign d => cases hc

end Clause

/-! ### Meeting the leaves and building the form -/

section Form

variable {K : Type} [Scalar K]

/-- Count a leaf and record its variables; data that are no expression are an error. -/
def Census.meet (rule : Datum K) (census : Census) :
    Clause K ⊕ Datum K → Except (Error K) Census
  | .inl c => census.register rule c
  | .inr d => .error (.definition ⟨rule, some census.next⟩ (.nodeType d.kindName))

namespace Expr

mutual
/-- The normal form of an expression, or of its negation, whatever its leaves are. -/
def form : Expr K → Bool → Dnf K
  | atom c, positive => Dnf.reduce (if positive then [[c]] else c.opposite)
  | const d, positive => if d.truth == positive then Dnf.verum else Dnf.falsum
  | not e, positive => form e (!positive)
  | ifThen a c, positive =>
    if positive then Dnf.disj [form a (!positive), form c positive]
    else Dnf.conj [form a (!positive), form c positive]
  | and args, positive =>
    if positive then Dnf.conj (formEach args positive) else Dnf.disj (formEach args positive)
  | or args, positive =>
    if positive then Dnf.disj (formEach args positive) else Dnf.conj (formEach args positive)
  | foreign _, _ => Dnf.falsum

/-- The normal forms of several expressions. -/
def formEach : List (Expr K) → Bool → List (Dnf K)
  | [], _ => []
  | e :: rest, positive => form e positive :: formEach rest positive
end

theorem formEach_eq (es : List (Expr K)) (positive : Bool) :
    formEach es positive = es.map fun e => e.form positive := by
  induction es with
  | nil => rfl
  | cons e es ih => rw [formEach, ih, List.map_cons]

/-- Every normal form is reduced. -/
theorem form_isReduced : ∀ (e : Expr K) (positive : Bool), (e.form positive).IsReduced
  | atom c, positive => by rw [form]; exact ⟨_, rfl⟩
  | const d, positive => by
    rw [form]
    split
    · exact ⟨Dnf.verum, rfl⟩
    · exact ⟨Dnf.falsum, rfl⟩
  | not e, positive => by rw [form]; exact form_isReduced e (!positive)
  | ifThen a c, positive => by rw [form]; cases positive <;> exact ⟨_, rfl⟩
  | and args, positive => by rw [form]; cases positive <;> exact ⟨_, rfl⟩
  | or args, positive => by rw [form]; cases positive <;> exact ⟨_, rfl⟩
  | foreign d, positive => by rw [form]; exact ⟨Dnf.falsum, rfl⟩

end Expr

/-- Only a clause of one of the two kinds is counted. -/
theorem Census.isProper_of_meet {rule : Datum K} {census next : Census}
    {leaf : Clause K ⊕ Datum K} (h : census.meet rule leaf = .ok next) :
    ∃ c : Clause K, leaf = .inl c ∧ c.IsProper := by
  cases leaf with
  | inl c =>
    refine ⟨c, rfl, ?_⟩
    cases c with
    | linear c => exact trivial
    | membership c => exact trivial
    | foreign d => cases h
  | inr d => cases h

end Form

/-! ### Normal forms are forms -/

section Names

variable {K : Type} [Scalar K] {census next : Census}

/-- The place of a variable matters for errors only. -/
theorem Census.registerVar_eq_ok {site : Site K} {kind : VarKind} {name : String}
    {kinds after : List (String × VarKind)} (h : registerVar site kind kinds name = .ok after)
    (site' : Site K) : registerVar site' kind kinds name = .ok after := by
  rw [registerVar] at h ⊢
  split at h
  · exact h
  · split at h
    · next hkind => rwa [if_pos hkind]
    · cases h

/-- The name of a rule matters for errors only. -/
theorem Census.register_eq_ok {rule : Datum K} {c : Clause K}
    (h : census.register rule c = .ok next) (label : Datum K) :
    census.register label c = .ok next := by
  cases c with
  | linear c =>
    obtain ⟨kinds, hkinds, hnext⟩ := Outcome.bind_eq_ok.mp h
    exact Outcome.bind_eq_ok.mpr ⟨kinds, Outcome.foldlM_eq_ok_of_imp
      (fun _ _ _ hvar => registerVar_eq_ok hvar _) hkinds, hnext⟩
  | membership c =>
    obtain ⟨kinds, hkinds, hnext⟩ := Outcome.bind_eq_ok.mp h
    exact Outcome.bind_eq_ok.mpr ⟨kinds, Outcome.foldlM_eq_ok_of_imp
      (fun _ _ _ hvar => registerVar_eq_ok hvar _) hkinds, hnext⟩
  | foreign d => cases h

end Names

namespace Expr

section Normalize

variable {K : Type} [Scalar K] {rule : Datum K}

mutual
/-- Only an expression of clauses is normalised, and what it is normalised to is its form, whatever
the rule is called. -/
theorem form_of_normalize : ∀ {e : Expr K} {positive : Bool} {census : Census}
    {result : Dnf K × Census}, e.normalize rule positive census = .ok result →
      e.IsProper ∧ result.1 = e.form positive ∧
        ∀ label, e.normalize label positive census = .ok result
  | atom c, positive, census, result, h => by
    rw [normalize] at h
    obtain ⟨next, hnext, h⟩ := Outcome.bind_eq_ok.mp h
    have hmeet : census.meet rule (.inl c) = .ok next := hnext
    obtain ⟨_, ⟨⟩, hc⟩ := Census.isProper_of_meet hmeet
    refine ⟨fun leaf hleaf => ⟨c, List.mem_singleton.mp hleaf, hc⟩, ?_⟩
    cases positive with
    | true =>
      obtain rfl := Except.ok.inj h
      exact ⟨rfl, fun label => by rw [normalize, Census.register_eq_ok hnext label]; rfl⟩
    | false =>
      obtain ⟨d, hd, h⟩ := Outcome.bind_eq_ok.mp h
      obtain rfl := Except.ok.inj h
      refine ⟨by rw [Clause.eq_opposite_of_negate hd]; rfl, fun label => ?_⟩
      rw [normalize]
      exact Outcome.bind_eq_ok.mpr ⟨next, Census.register_eq_ok hnext label,
        Outcome.bind_eq_ok.mpr ⟨d, hd, rfl⟩⟩
  | const v, positive, census, result, h => by
    obtain rfl := Except.ok.inj h
    exact ⟨List.forall_mem_nil _, rfl, fun _ => rfl⟩
  | not e, positive, census, result, h => by
    rw [normalize] at h
    obtain ⟨hproper, hform, hlabel⟩ := form_of_normalize h
    exact ⟨hproper, hform, fun label => by rw [normalize, hlabel label]⟩
  | ifThen a c, positive, census, result, h => by
    rw [normalize] at h
    obtain ⟨⟨d, next⟩, hd, h⟩ := Outcome.bind_eq_ok.mp h
    obtain ⟨⟨d', last⟩, hd', h⟩ := Outcome.bind_eq_ok.mp h
    obtain rfl := Except.ok.inj h
    obtain ⟨hproper, rfl, hlabel⟩ := form_of_normalize hd
    obtain ⟨hproper', rfl, hlabel'⟩ := form_of_normalize hd'
    refine ⟨List.forall_mem_append.mpr ⟨hproper, hproper'⟩, rfl, fun label => ?_⟩
    rw [normalize, hlabel label, Outcome.ok_bind]
    exact Outcome.bind_eq_ok.mpr ⟨_, hlabel' label, rfl⟩
  | and args, positive, census, result, h => by
    rw [normalize] at h
    obtain ⟨⟨ds, next⟩, hds, h⟩ := Outcome.bind_eq_ok.mp h
    obtain rfl := Except.ok.inj h
    obtain ⟨hproper, rfl, hlabel⟩ := formEach_of_normalizeEach hds
    exact ⟨hproper, rfl, fun label => by rw [normalize, hlabel label]; rfl⟩
  | or args, positive, census, result, h => by
    rw [normalize] at h
    obtain ⟨⟨ds, next⟩, hds, h⟩ := Outcome.bind_eq_ok.mp h
    obtain rfl := Except.ok.inj h
    obtain ⟨hproper, rfl, hlabel⟩ := formEach_of_normalizeEach hds
    exact ⟨hproper, rfl, fun label => by rw [normalize, hlabel label]; rfl⟩
  | foreign d, positive, census, result, h => by cases h

theorem formEach_of_normalizeEach : ∀ {es : List (Expr K)} {positive : Bool} {census : Census}
    {result : List (Dnf K) × Census}, normalizeEach rule es positive census = .ok result →
      (∀ leaf ∈ leavesEach es, ∃ c : Clause K, leaf = .inl c ∧ c.IsProper) ∧
        result.1 = formEach es positive ∧
        ∀ label, normalizeEach label es positive census = .ok result
  | [], positive, census, result, h => by
    obtain rfl := Except.ok.inj h
    exact ⟨List.forall_mem_nil _, rfl, fun _ => rfl⟩
  | e :: es, positive, census, result, h => by
    rw [normalizeEach] at h
    obtain ⟨⟨d, next⟩, hd, h⟩ := Outcome.bind_eq_ok.mp h
    obtain ⟨⟨ds, last⟩, hds, h⟩ := Outcome.bind_eq_ok.mp h
    obtain rfl := Except.ok.inj h
    obtain ⟨hproper, rfl, hlabel⟩ := form_of_normalize hd
    obtain ⟨hpropers, rfl, hlabels⟩ := formEach_of_normalizeEach hds
    refine ⟨?_, rfl, fun label => ?_⟩
    · rw [leavesEach]
      exact List.forall_mem_append.mpr ⟨hproper, hpropers⟩
    · rw [normalizeEach, hlabel label, Outcome.ok_bind]
      exact Outcome.bind_eq_ok.mpr ⟨_, hlabels label, rfl⟩
end

theorem form_of_toDnf {e : Expr K} {d : Dnf K} (h : e.toDnf rule = .ok d) :
    e.IsProper ∧ d = e.form true ∧ ∀ label, e.toDnf label = .ok d := by
  obtain ⟨result, hresult, h⟩ := Outcome.bind_eq_ok.mp h
  obtain rfl := Except.ok.inj h
  obtain ⟨hproper, hform, hlabel⟩ := form_of_normalize hresult
  exact ⟨hproper, hform, fun label => Outcome.bind_eq_ok.mpr ⟨result, hlabel label, rfl⟩⟩

/-- An expression that has a normal form has clauses for leaves. -/
theorem isProper_of_toDnf {e : Expr K} {d : Dnf K} (h : e.toDnf rule = .ok d) : e.IsProper :=
  (form_of_toDnf h).1

theorem eq_form_of_toDnf {e : Expr K} {d : Dnf K} (h : e.toDnf rule = .ok d) :
    d = e.form true :=
  (form_of_toDnf h).2.1

/-- The name of a rule matters for errors only. -/
theorem toDnf_eq_ok {e : Expr K} {d : Dnf K} (h : e.toDnf rule = .ok d) (label : Datum K) :
    e.toDnf label = .ok d :=
  (form_of_toDnf h).2.2 label

/-! ### Clauses of the form -/

section Within

variable {P : Clause K → Prop}

mutual
/-- The clauses of the form have a property that the leaves have, if opposites keep it. -/
theorem within_form_of_leaves (hP : ∀ c, P c → c.opposite.Within P) :
    ∀ (e : Expr K) (positive : Bool), (∀ c, .inl c ∈ e.leaves → P c) → (e.form positive).Within P
  | atom c, positive, h => by
    have hc : P c := h c List.mem_cons_self
    rw [form]
    refine Dnf.Within.reduce ?_
    cases positive with
    | true =>
      intro term hterm d hd
      obtain rfl := List.mem_singleton.mp hterm
      obtain rfl := List.mem_singleton.mp hd
      exact hc
    | false => exact hP c hc
  | const d, positive, _ => by
    intro term hterm c hc
    rw [form] at hterm
    split at hterm
    · obtain rfl := List.mem_singleton.mp hterm
      cases hc
    · cases hterm
  | not e, positive, h => by
    rw [form]
    exact within_form_of_leaves hP e (!positive) h
  | ifThen a c, positive, h => by
    have ha := within_form_of_leaves hP a (!positive) fun d hd => h d (List.mem_append_left _ hd)
    have hc := within_form_of_leaves hP c positive fun d hd => h d (List.mem_append_right _ hd)
    have hparts : ∀ d ∈ [a.form (!positive), c.form positive], d.Within P :=
      List.forall_mem_cons.mpr ⟨ha, List.forall_mem_singleton.mpr hc⟩
    rw [form]
    cases positive with
    | true => exact Dnf.Within.disj hparts
    | false => exact Dnf.Within.conj hparts
  | and args, positive, h => by
    have hparts := within_formEach_of_leaves hP args positive h
    rw [form]
    cases positive with
    | true => exact Dnf.Within.conj hparts
    | false => exact Dnf.Within.disj hparts
  | or args, positive, h => by
    have hparts := within_formEach_of_leaves hP args positive h
    rw [form]
    cases positive with
    | true => exact Dnf.Within.disj hparts
    | false => exact Dnf.Within.conj hparts
  | foreign d, positive, _ => by
    rw [form]
    intro term hterm
    cases hterm

theorem within_formEach_of_leaves (hP : ∀ c, P c → c.opposite.Within P) :
    ∀ (es : List (Expr K)) (positive : Bool), (∀ c, .inl c ∈ leavesEach es → P c) →
      ∀ d ∈ formEach es positive, d.Within P
  | [], _, _ => by intro d hd; cases hd
  | e :: es, positive, h => by
    have he := within_form_of_leaves hP e positive fun c hc => h c (List.mem_append_left _ hc)
    have hes := within_formEach_of_leaves hP es positive fun c hc =>
      h c (List.mem_append_right _ hc)
    rw [formEach]
    exact List.forall_mem_cons.mpr ⟨he, hes⟩
end

end Within

/-- The form is made of clauses when the expression is. -/
theorem isProper_form {e : Expr K} (he : e.IsProper) (positive : Bool) :
    (e.form positive).Within Clause.IsProper := by
  refine within_form_of_leaves (fun c _ term hterm o ho => ?_) e positive fun c hc => ?_
  · exact (c.within_opposite term hterm o ho).1
  · obtain ⟨_, ⟨⟩, hproper⟩ := he _ hc
    exact hproper

/-- An expression of clauses, and a reduced normal form of clauses. -/
structure HasForm (e : Expr K) (d : Dnf K) : Prop where
  isProper : e.IsProper
  isReduced : d.IsReduced
  within : d.Within Clause.IsProper

theorem hasForm_of_normalize {e : Expr K} {positive : Bool} {census : Census}
    {result : Dnf K × Census} (h : e.normalize rule positive census = .ok result) :
    e.HasForm result.1 := by
  obtain ⟨hproper, hform, -⟩ := form_of_normalize h
  rw [hform]
  exact ⟨hproper, e.form_isReduced positive, isProper_form hproper positive⟩

theorem hasForm_of_toDnf {e : Expr K} {d : Dnf K} (h : e.toDnf rule = .ok d) : e.HasForm d := by
  obtain ⟨result, hresult, h⟩ := Outcome.bind_eq_ok.mp h
  obtain rfl := Except.ok.inj h
  exact hasForm_of_normalize hresult

theorem hasForm_of_negate {e : Expr K} {d : Dnf K} (h : e.negate rule = .ok d) : e.HasForm d := by
  obtain ⟨result, hresult, h⟩ := Outcome.bind_eq_ok.mp h
  obtain rfl := Except.ok.inj h
  exact hasForm_of_normalize hresult

/-! ### Splitting the two -/

mutual
/-- Normalising meets the leaves one after the other, if their negations pass all checks; the normal
form does not depend on the census. -/
theorem normalize_of_negates : ∀ (e : Expr K) (positive : Bool) (census : Census),
    (∀ c, .inl c ∈ e.leaves → c.IsProper → c.negate = .ok c.opposite) →
    e.normalize rule positive census =
      e.leaves.foldlM (Census.meet rule) census >>= fun census => .ok (e.form positive, census)
  | atom c, positive, census, h => by
    rw [normalize, leaves, List.foldlM_cons, Census.meet]
    cases hreg : census.register rule c with
    | error err => rfl
    | ok next =>
      -- a clause that was met is no foreign datum, so its negation is there
      have hmeet : census.meet rule (.inl c) = .ok next := hreg
      obtain ⟨_, ⟨⟩, hc⟩ := Census.isProper_of_meet hmeet
      cases positive with
      | true => rfl
      | false => simp only [Outcome.ok_bind, h c List.mem_cons_self hc, form]; rfl
  | const d, positive, census, _ => rfl
  | not e, positive, census, h => by
    rw [normalize, normalize_of_negates e _ _ h, leaves, form]
  | ifThen a c, positive, census, h => by
    have ha := normalize_of_negates a (!positive) census fun d hd =>
      h d (List.mem_append_left _ hd)
    have hc := fun next => normalize_of_negates c positive next fun d hd =>
      h d (List.mem_append_right _ hd)
    rw [normalize, ha, leaves, List.foldlM_append, bind_assoc, bind_assoc]
    refine bind_congr fun next => ?_
    dsimp only [Outcome.ok_bind]
    rw [hc, bind_assoc, form]
    rfl
  | and args, positive, census, h => by
    rw [normalize, normalizeEach_of_negates args _ _ h, leaves, bind_assoc, form]
    rfl
  | or args, positive, census, h => by
    rw [normalize, normalizeEach_of_negates args _ _ h, leaves, bind_assoc, form]
    rfl
  | foreign d, positive, census, _ => rfl

theorem normalizeEach_of_negates : ∀ (es : List (Expr K)) (positive : Bool) (census : Census),
    (∀ c, .inl c ∈ leavesEach es → c.IsProper → c.negate = .ok c.opposite) →
    normalizeEach rule es positive census =
      (leavesEach es).foldlM (Census.meet rule) census >>=
        fun census => .ok (formEach es positive, census)
  | [], positive, census, _ => rfl
  | e :: es, positive, census, h => by
    have he := normalize_of_negates e positive census fun d hd => h d (List.mem_append_left _ hd)
    have hes := fun next => normalizeEach_of_negates es positive next fun d hd =>
      h d (List.mem_append_right _ hd)
    rw [normalizeEach, he, leavesEach, List.foldlM_append, bind_assoc, bind_assoc]
    refine bind_congr fun next => ?_
    dsimp only [Outcome.ok_bind]
    rw [hes, bind_assoc, formEach]
    rfl
end

end Normalize

variable {rule : Datum Rat}

theorem normalize_eq (e : Expr Rat) (positive : Bool) (census : Census) :
    e.normalize rule positive census =
      e.leaves.foldlM (Census.meet rule) census >>= fun census => .ok (e.form positive, census) :=
  normalize_of_negates e positive census fun _ _ hc => Clause.negate_eq hc

/-- The negation of an expression that has a normal form has one. -/
theorem negate_eq_of_toDnf {e : Expr Rat} {d : Dnf Rat} (h : e.toDnf rule = .ok d) :
    e.negate rule = .ok (e.form false) := by
  rw [toDnf, normalize_eq] at h
  obtain ⟨result, hresult, -⟩ := Outcome.bind_eq_ok.mp h
  obtain ⟨census, hcensus, -⟩ := Outcome.bind_eq_ok.mp hresult
  rw [negate, normalize_eq, hcensus]
  rfl

/-! ### Truth of the form -/

variable {v : Valuation}

mutual
/-- The form of a polarity is true when the expression has that truth value. -/
theorem eval_form : ∀ (e : Expr Rat) (positive : Bool), e.IsProper →
    (e.form positive).eval .exact v = (e.eval .exact v == positive)
  | atom c, positive, h => by
    obtain ⟨_, ⟨⟩, hc⟩ := h _ List.mem_cons_self
    rw [form, Dnf.eval_reduce (Comparison.exact_decides v _), eval]
    cases positive with
    | true => simp [Dnf.eval]
    | false => rw [if_neg Bool.false_ne_true, Clause.eval_opposite hc]; simp
  | const d, positive, _ => by
    rw [form, eval]
    cases d.truth == positive <;> rfl
  | not e, positive, h => by
    rw [form, eval_form e (!positive) h, eval]
    cases e.eval .exact v <;> cases positive <;> rfl
  | ifThen a c, positive, h => by
    have ha := eval_form a (!positive) fun leaf hleaf => h leaf (List.mem_append_left _ hleaf)
    have hc := eval_form c positive fun leaf hleaf => h leaf (List.mem_append_right _ hleaf)
    rw [form, eval]
    cases positive with
    | true =>
      rw [if_pos rfl, Dnf.eval_disj, List.any_cons, List.any_cons, List.any_nil, ha, hc]
      cases a.eval .exact v <;> cases c.eval .exact v <;> rfl
    | false =>
      rw [if_neg Bool.false_ne_true, Dnf.eval_conj, List.all_cons, List.all_cons, List.all_nil,
        ha, hc]
      cases a.eval .exact v <;> cases c.eval .exact v <;> rfl
  | and args, positive, h => by
    have hargs := eval_formEach args positive h
    rw [form, eval, evalAll_eq]
    cases positive with
    | true => rw [if_pos rfl, Dnf.eval_conj, hargs.1]; simp
    | false =>
      rw [if_neg Bool.false_ne_true, Dnf.eval_disj, hargs.2]
      simp [List.not_all_eq_any_not]
  | or args, positive, h => by
    have hargs := eval_formEach args positive h
    rw [form, eval, evalAny_eq]
    cases positive with
    | true => rw [if_pos rfl, Dnf.eval_disj, hargs.2]; simp
    | false =>
      rw [if_neg Bool.false_ne_true, Dnf.eval_conj, hargs.1]
      simp [List.not_any_eq_all_not]
  | foreign d, _, h => by
    obtain ⟨_, ⟨⟩, _⟩ := h _ List.mem_cons_self

theorem eval_formEach : ∀ (es : List (Expr Rat)) (positive : Bool),
    (∀ leaf ∈ leavesEach es, ∃ c : Clause Rat, leaf = .inl c ∧ c.IsProper) →
    ((formEach es positive).all (Dnf.eval .exact v) =
        es.all fun e => e.eval .exact v == positive) ∧
      (formEach es positive).any (Dnf.eval .exact v) =
        es.any fun e => e.eval .exact v == positive
  | [], _, _ => ⟨rfl, rfl⟩
  | e :: es, positive, h => by
    have he := eval_form e positive fun leaf hleaf => h leaf (List.mem_append_left _ hleaf)
    have hes := eval_formEach es positive fun leaf hleaf => h leaf (List.mem_append_right _ hleaf)
    rw [formEach, List.all_cons, List.all_cons, List.any_cons, List.any_cons, he, hes.1, hes.2]
    exact ⟨rfl, rfl⟩
end

/-! ### Variables of the form -/

/-- The clauses of the form use variables that the expression uses. -/
theorem within_form (e : Expr Rat) (positive : Bool) (he : e.IsProper) :
    (e.form positive).Within fun c => c.IsProper ∧ c.uses ⊆ e.uses := by
  refine within_form_of_leaves (fun c hc term hterm o ho => ?_) e positive fun c hc => ?_
  · obtain ⟨hproper, huses⟩ := c.within_opposite term hterm o ho
    exact ⟨hproper, huses ▸ hc.2⟩
  · obtain ⟨_, ⟨⟩, hproper⟩ := he _ hc
    exact ⟨hproper, fun u hu => List.mem_flatMap.mpr ⟨_, hc, hu⟩⟩

end Expr

/-! ### Evaluation on assignments -/

/-- Some term of a normal form has all its clauses true on an assignment. -/
def Dnf.HoldsOn (d : Dnf Rat) (a : Assignment Rat) : Prop :=
  ∃ term ∈ d, ∀ c ∈ term, (Expr.atom c).holds a 0 = .ok true

/-- Where its clauses can be evaluated, a normal form holds when it is true. -/
theorem Dnf.holdsOn_iff_eval_of_holds {d : Dnf Rat} {a : Assignment Rat}
    (h : d.Within fun c => ∃ b, c.holds a 0 = .ok b) :
    d.HoldsOn a ↔ d.eval .exact a.valuation = true := by
  rw [Dnf.eval_eq_true]
  refine exists_congr fun term => and_congr_right fun hterm => forall₂_congr fun c hc => ?_
  obtain ⟨b, hb⟩ := h term hterm c hc
  rw [Expr.holds, hb, Comparison.exact, Clause.eval_of_holds hb]
  exact ⟨Except.ok.inj, congrArg _⟩

/-- On an assignment that suits its clauses, a normal form holds when it is true. -/
theorem Dnf.holdsOn_iff_eval {d : Dnf Rat} {a : Assignment Rat}
    (h : d.Within fun c => c.IsProper ∧ a.Suits c.uses) :
    d.HoldsOn a ↔ d.eval .exact a.valuation = true := by
  refine Dnf.holdsOn_iff_eval_of_holds ?_
  intro term hterm c hc
  obtain ⟨hproper, hsuits⟩ := h term hterm c hc
  exact Clause.exists_holds hproper hsuits

/-- **Normalisation preserves meaning.** On every assignment that gives the variables of an
expression values of their kinds, the expression has a truth value; some term of its normal form
holds when it is true, and some term of the normal form of its negation when it is false. -/
theorem Expr.normal_forms_hold_iff {e : Expr Rat} {rule : Datum Rat} {d : Dnf Rat}
    {a : Assignment Rat} (hd : e.toDnf rule = .ok d) (ha : a.Suits e.uses) :
    ∃ n b, e.negate rule = .ok n ∧ e.holds a 0 = .ok b ∧
      (d.HoldsOn a ↔ b = true) ∧ (n.HoldsOn a ↔ b = false) := by
  have he := Expr.isProper_of_toDnf hd
  have hform (positive : Bool) :
      (e.form positive).HoldsOn a ↔ e.eval .exact a.valuation = positive := by
    have hwithin : (e.form positive).Within fun c => c.IsProper ∧ a.Suits c.uses := by
      intro term hterm c hc
      obtain ⟨hproper, huses⟩ := e.within_form positive he term hterm c hc
      exact ⟨hproper, fun u hu => ha u (huses hu)⟩
    rw [Dnf.holdsOn_iff_eval hwithin, Expr.eval_form e positive he, beq_iff_eq]
  obtain rfl := Expr.eq_form_of_toDnf hd
  exact ⟨e.form false, e.eval .exact a.valuation, Expr.negate_eq_of_toDnf hd,
    Expr.holds_eq_eval he ha, hform true, hform false⟩

/-- A conditional whose consequent is a negated conjunction, at a number and a label. -/
theorem Expr.normal_forms_hold_iff_conditional :
    let low : Clause Rat := .linear (.canonical [(⟨"x", by decide⟩, 1)] .le 3)
    let one : Clause Rat := .linear (.canonical [(⟨"x", by decide⟩, 1)] .eq 1)
    let red : Clause Rat := .membership (.ofLabels ⟨"c", by decide⟩ ["red"] false)
    let e : Expr Rat := .ifThen (.atom low) (.not (.and [.atom one, .atom red]))
    let a : Assignment Rat := [("x", .int 1), ("c", .text "red")]
    ∃ d, e.toDnf (.text "r") = .ok d ∧ d.length = 4 ∧ a.Suits e.uses ∧
      ∃ n b, e.negate (.text "r") = .ok n ∧ e.holds a 0 = .ok b ∧
        (d.HoldsOn a ↔ b = true) ∧ (n.HoldsOn a ↔ b = false) := by
  intro low one red e a
  have huses : e.uses = [("x", .numeric), ("x", .numeric), ("c", .categorical)] := by
    decide +kernel
  have ha : a.Suits e.uses := by
    rw [huses]
    intro u hu
    simp only [List.mem_cons, List.not_mem_nil, or_false] at hu
    rcases hu with rfl | rfl | rfl
    · exact ⟨.int 1, rfl, trivial⟩
    · exact ⟨.int 1, rfl, trivial⟩
    · exact ⟨.text "red", rfl, trivial⟩
  have hsome : (e.toDnf (.text "r")).toOption.any (·.length = 4) = true := by decide +kernel
  obtain ⟨d, hd, hlen⟩ := Outcome.exists_of_any_toOption hsome
  exact ⟨d, hd, of_decide_eq_true hlen, ha, Expr.normal_forms_hold_iff hd ha⟩

end RuleAudit
