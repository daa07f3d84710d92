import RuleAudit.Dnf.Checked
import RuleAudit.Proofs.Valuation

/-!
# Truth of reduced normal forms

Deciding constant clauses, dropping false terms and dropping repetitions keep the truth value of a
normal form, as long as a constant clause has the truth value that it was decided with; compared
exactly, it always has. Distribution is conjunction and concatenation is disjunction. A reduced form
is the true marker, or has only terms with clauses, none of them constant.
-/

namespace RuleAudit

/-! ### Lists without repetitions -/

section EraseDups

variable {α : Type} [BEq α]

/-- Dropping repetitions keeps the order. -/
theorem eraseDups_sublist (l : List α) : l.eraseDups.Sublist l := by
  induction h : l.length using Nat.strong_induction_on generalizing l with
  | _ n ih =>
    cases l with
    | nil => exact .slnil
    | cons a l =>
      rw [List.eraseDups_cons]
      have hlen : (l.filter fun b => !b == a).length < n := by
        have := List.length_filter_le (fun b => !b == a) l
        simp only [List.length_cons] at h
        omega
      exact ((ih _ hlen _ rfl).trans List.filter_sublist).cons_cons a

/-- A test that does not tell equal items apart fares the same without repetitions. -/
theorem any_eraseDups {f : α → Bool} (hf : ∀ a b, (a == b) = true → f a = f b) (l : List α) :
    l.eraseDups.any f = l.any f := by
  induction h : l.length using Nat.strong_induction_on generalizing l with
  | _ n ih =>
    cases l with
    | nil => rfl
    | cons a l =>
      have hlen : (l.filter fun b => !b == a).length < n := by
        have := List.length_filter_le (fun b => !b == a) l
        simp only [List.length_cons] at h
        omega
      rw [List.eraseDups_cons, List.any_cons, List.any_cons, ih _ hlen _ rfl, List.any_filter]
      cases ha : f a with
      | true => rfl
      | false =>
        simp only [Bool.false_or]
        refine List.any_congr rfl fun b => ?_
        cases hb : b == a with
        | true => simp [hf b a hb, ha]
        | false => simp

/-- The same for a test that all items must pass. -/
theorem all_eraseDups {f : α → Bool} (hf : ∀ a b, (a == b) = true → f a = f b) (l : List α) :
    l.eraseDups.all f = l.all f := by
  rw [List.all_eq_not_any_not, List.all_eq_not_any_not,
    any_eraseDups fun a b hab => by rw [hf a b hab]]

/-- A property that does not tell equal items apart holds of all items once it holds of the first
of equal ones. -/
theorem forall_mem_eraseDups {P : α → Prop} (hP : ∀ a b, (a == b) = true → (P a ↔ P b))
    (l : List α) : (∀ a ∈ l.eraseDups, P a) ↔ ∀ a ∈ l, P a := by
  classical
  have hall := all_eraseDups (f := fun a => decide (P a))
    (fun a b hab => decide_eq_decide.mpr (hP a b hab)) l
  rw [Bool.eq_iff_iff, List.all_eq_true, List.all_eq_true] at hall
  simpa only [decide_eq_true_eq] using hall

/-- The same for a property of some item. -/
theorem exists_mem_eraseDups {P : α → Prop} (hP : ∀ a b, (a == b) = true → (P a ↔ P b))
    (l : List α) : (∃ a ∈ l.eraseDups, P a) ↔ ∃ a ∈ l, P a := by
  have hall := forall_mem_eraseDups (P := fun a => ¬ P a) (fun a b h => not_congr (hP a b h)) l
  simpa only [not_forall, not_not, exists_prop] using not_congr hall

/-- Without repetitions, no item equals a later one. -/
theorem pairwise_eraseDups (l : List α) :
    l.eraseDups.Pairwise fun a b => (b == a) = false := by
  induction h : l.length using Nat.strong_induction_on generalizing l with
  | _ n ih =>
    cases l with
    | nil => exact .nil
    | cons a l =>
      rw [List.eraseDups_cons]
      have hlen : (l.filter fun b => !b == a).length < n := by
        have := List.length_filter_le (fun b => !b == a) l
        simp only [List.length_cons] at h
        omega
      refine List.pairwise_cons.mpr ⟨fun b hb => ?_, ih _ hlen _ rfl⟩
      have hkept := (List.mem_filter.mp ((eraseDups_sublist _).subset hb)).2
      simpa using hkept

/-- A list in which no item equals a later one has no repetitions to drop. -/
theorem eraseDups_of_pairwise {l : List α} (h : l.Pairwise fun a b => (b == a) = false) :
    l.eraseDups = l := by
  induction l with
  | nil => rfl
  | cons a l ih =>
    obtain ⟨ha, hl⟩ := List.pairwise_cons.mp h
    have hfilter : (l.filter fun b => !b == a) = l :=
      List.filter_eq_self.mpr fun b hb => by rw [ha b hb]; rfl
    rw [List.eraseDups_cons, hfilter, ih hl]

end EraseDups

/-! ### Equal clauses -/

section Congr

variable (cmp : Comparison) (v : Valuation)

/-- Equal clauses have the same truth value. -/
theorem Clause.eval_congr {c d : Clause Rat} (h : (c == d) = true) :
    c.eval cmp v = d.eval cmp v := by
  cases c <;> cases d <;> first | cases h | skip
  case linear.linear c d =>
    -- equality of linear clauses compares their parts, and these decide the truth value
    obtain ⟨⟨ht, hr⟩, hs⟩ : ((c.terms == d.terms) = true ∧ (c.relation == d.relation) = true) ∧
        (c.rhs == d.rhs) = true := by
      have h' : (c.terms == d.terms && c.relation == d.relation && c.rhs == d.rhs) = true := h
      simpa only [Bool.and_eq_true] using h'
    rw [eval, eval, LinearClause.sumAt, LinearClause.sumAt, eq_of_beq ht, eq_of_beq hr,
      eq_of_beq hs]
  case membership.membership c d =>
    have h' : (c == d) = true := h
    rw [eq_of_beq h']
  case foreign.foreign => rfl

/-- Equal terms have the same truth value. -/
theorem Term.eval_congr {s t : Term Rat} (h : (s == t) = true) :
    s.all (Clause.eval cmp v) = t.all (Clause.eval cmp v) := by
  induction s generalizing t with
  | nil => cases t <;> first | rfl | cases h
  | cons c s ih =>
    cases t with
    | nil => cases h
    | cons d t =>
      obtain ⟨hc, hs⟩ : (c == d) = true ∧ (s == t) = true := by
        simpa only [List.cons_beq_cons, Bool.and_eq_true] using h
      rw [List.all_cons, List.all_cons, Clause.eval_congr cmp v hc, ih hs]

end Congr

/-! ### Constant clauses -/

/-- Constant clauses have the truth value that they are decided with. -/
def Comparison.Decides (cmp : Comparison) (v : Valuation) (d : Dnf Rat) : Prop :=
  ∀ term ∈ d, ∀ c ∈ term, ∀ b, c.constant? = some b → c.eval cmp v = b

/-- Exact comparison decides every clause rightly. -/
theorem Clause.eval_of_constant? {c : Clause Rat} {b : Bool} (h : c.constant? = some b)
    (v : Valuation) : c.eval .exact v = b := by
  cases c with
  | linear c =>
    rw [constant?] at h
    split at h
    · next ht =>
      rw [List.isEmpty_iff] at ht
      have hsum : c.sumAt v = 0 := by rw [LinearClause.sumAt, ht]; rfl
      rw [eval, hsum]
      exact Option.some.inj h
    · cases h
  | membership c =>
    rw [constant?] at h
    split at h
    · next hl =>
      rw [List.isEmpty_iff] at hl
      have hlists : c.lists v = false := by
        rw [MembershipClause.lists, hl]
        cases v.label c.subject <;> rfl
      rw [eval, hlists, ← Option.some.inj h]
      cases c.negated <;> rfl
    · cases h
  | foreign d => cases h

theorem Comparison.exact_decides (v : Valuation) (d : Dnf Rat) : exact.Decides v d :=
  fun _ _ _ _ _ h => Clause.eval_of_constant? h v

namespace Dnf

/-! ### Clauses of a normal form -/

section Meets

variable {K : Type} [Scalar K] {P : Clause K → Prop} {d e : Dnf K} {parts : List (Dnf K)}

/-- All clauses of a normal form have a property. -/
def Within (d : Dnf K) (P : Clause K → Prop) : Prop :=
  ∀ term ∈ d, ∀ c ∈ term, P c

/-- Some term has only clauses with a property. -/
def Meets (d : Dnf K) (P : Clause K → Prop) : Prop :=
  ∃ term ∈ d, ∀ c ∈ term, P c

theorem within_singleton {c : Clause K} : Within [[c]] P ↔ P c := by
  simp [Within]

theorem meets_singleton {c : Clause K} : Meets [[c]] P ↔ P c := by
  simp [Meets]

theorem nil_mem_verum : [] ∈ (verum : Dnf K) :=
  List.mem_singleton_self _

theorem meets_verum : (verum : Dnf K).Meets P :=
  ⟨[], nil_mem_verum, List.forall_mem_nil _⟩

theorem not_meets_falsum : ¬ (falsum : Dnf K).Meets P := by
  rintro ⟨term, hterm, -⟩
  cases hterm

theorem meets_flatten : Meets parts.flatten P ↔ ∃ d ∈ parts, d.Meets P := by
  simp only [Meets, List.mem_flatten]
  exact ⟨fun ⟨t, ⟨d, hd, ht⟩, hP⟩ => ⟨d, hd, t, ht, hP⟩,
    fun ⟨d, hd, t, ht, hP⟩ => ⟨t, ⟨d, hd, ht⟩, hP⟩⟩

/-- The clauses that a term keeps decide about it, if constant clauses have the property when they
are true. -/
theorem forall_mem_reduceTerm {term : Term K}
    (h : ∀ c ∈ term, ∀ b, c.constant? = some b → (P c ↔ b = true)) :
    (∃ kept, reduceTerm term = some kept ∧ ∀ c ∈ kept, P c) ↔ ∀ c ∈ term, P c := by
  rw [reduceTerm]
  split
  · next hany =>
    -- a false clause drops the term
    obtain ⟨c, hc, hfalse⟩ := List.any_eq_true.mp hany
    refine iff_of_false (by simp) fun hall => ?_
    cases (h c hc false (eq_of_beq hfalse)).mp (hall c hc)
  · next hany =>
    simp only [Option.some.injEq, exists_eq_left', List.mem_filter, and_imp]
    refine forall₂_congr fun c hc => ?_
    cases hconst : c.constant? with
    | none => simp
    | some b =>
      cases b with
      | true => simp [(h c hc true hconst).mpr rfl]
      | false => exact absurd (List.any_eq_true.mpr ⟨c, hc, by simp [hconst]⟩) hany

variable (hP : ∀ c d, (c == d) = true → (P c ↔ P d))

include hP

/-- A property of all clauses does not tell equal terms apart. -/
theorem forall_mem_congr :
    ∀ s t : Term K, (s == t) = true → ((∀ c ∈ s, P c) ↔ ∀ c ∈ t, P c)
  | [], [], _ => Iff.rfl
  | [], _ :: _, h => by cases h
  | _ :: _, [], h => by cases h
  | c :: s, d :: t, h => by
    rw [List.cons_beq_cons, Bool.and_eq_true] at h
    rw [List.forall_mem_cons, List.forall_mem_cons, hP c d h.1, forall_mem_congr s t h.2]

/-- Reducing keeps what is said of some term, if constant clauses have the property when they are
true. -/
theorem meets_reduce (h : d.Within fun c => ∀ b, c.constant? = some b → (P c ↔ b = true)) :
    d.reduce.Meets P ↔ d.Meets P := by
  have hterms : (∃ kept ∈ d.filterMap reduceTerm, ∀ c ∈ kept, P c) ↔ d.Meets P := by
    simp only [List.mem_filterMap, Meets]
    constructor
    · rintro ⟨kept, ⟨term, hterm, hkept⟩, hall⟩
      exact ⟨term, hterm, (forall_mem_reduceTerm (h term hterm)).mp ⟨kept, hkept, hall⟩⟩
    · rintro ⟨term, hterm, hall⟩
      obtain ⟨kept, hkept, hall⟩ := (forall_mem_reduceTerm (h term hterm)).mpr hall
      exact ⟨kept, ⟨term, hterm, hkept⟩, hall⟩
  rw [← hterms, reduce]
  split
  · next hempty =>
    -- some term has no clause left, so it says nothing of any clause
    obtain ⟨kept, hkept, hnil⟩ := List.any_eq_true.mp hempty
    obtain rfl := List.isEmpty_iff.mp hnil
    exact iff_of_true meets_verum ⟨[], hkept, List.forall_mem_nil _⟩
  · rw [Meets, exists_mem_eraseDups (forall_mem_congr hP)]
    simp only [List.mem_map, exists_exists_and_eq_and, forall_mem_eraseDups hP]

/-- Distribution is conjunction. -/
theorem meets_cross : (cross d e).Meets P ↔ d.Meets P ∧ e.Meets P := by
  rw [cross, Meets, exists_mem_eraseDups (forall_mem_congr hP)]
  simp only [List.mem_flatMap, List.mem_map]
  constructor
  · rintro ⟨_, ⟨s, hs, t, ht, rfl⟩, hst⟩
    rw [forall_mem_eraseDups hP, List.forall_mem_append] at hst
    exact ⟨⟨s, hs, hst.1⟩, t, ht, hst.2⟩
  · rintro ⟨⟨s, hs, hsP⟩, t, ht, htP⟩
    refine ⟨_, ⟨s, hs, t, ht, rfl⟩, (forall_mem_eraseDups hP _).mpr ?_⟩
    exact List.forall_mem_append.mpr ⟨hsP, htP⟩

/-- Distributing over several disjunctions, from any disjunction on. -/
theorem meets_foldl_cross : (parts.foldl cross d).Meets P ↔ d.Meets P ∧ ∀ e ∈ parts, e.Meets P := by
  induction parts generalizing d with
  | nil => simp
  | cons e parts ih => rw [List.foldl_cons, ih, meets_cross hP, and_assoc, List.forall_mem_cons]

end Meets

/-! ### Truth of normal forms -/

variable {cmp : Comparison} {v : Valuation}

@[simp]
theorem eval_verum : (verum : Dnf Rat).eval cmp v = true := rfl

theorem eval_eq_true {d : Dnf Rat} :
    d.eval cmp v = true ↔ ∃ term ∈ d, ∀ c ∈ term, c.eval cmp v = true := by
  simp only [eval, List.any_eq_true, List.all_eq_true]

/-- Equal clauses are true alike. -/
private theorem eval_eq_true_congr (c d : Clause Rat) (h : (c == d) = true) :
    c.eval cmp v = true ↔ d.eval cmp v = true := by
  rw [Clause.eval_congr cmp v h]

/-- Reducing keeps the truth value. -/
theorem eval_reduce {d : Dnf Rat} (h : cmp.Decides v d) : d.reduce.eval cmp v = d.eval cmp v := by
  rw [Bool.eq_iff_iff, eval_eq_true, eval_eq_true]
  refine meets_reduce eval_eq_true_congr fun term hterm c hc b hb => ?_
  rw [h term hterm c hc b hb]

/-- Distribution is conjunction. -/
theorem eval_cross (d e : Dnf Rat) :
    (cross d e).eval cmp v = (d.eval cmp v && e.eval cmp v) := by
  rw [Bool.eq_iff_iff, Bool.and_eq_true, eval_eq_true, eval_eq_true, eval_eq_true]
  exact meets_cross eval_eq_true_congr

/-- Distributing over several disjunctions, from any disjunction on. -/
private theorem eval_foldl_cross (d : Dnf Rat) (parts : List (Dnf Rat)) :
    (parts.foldl cross d).eval cmp v = (d.eval cmp v && parts.all (eval cmp v)) := by
  induction parts generalizing d with
  | nil => simp
  | cons e parts ih => rw [List.foldl_cons, ih, eval_cross, List.all_cons, Bool.and_assoc]

/-- Compared exactly, a conjunction of normal forms is true when all of them are. -/
theorem eval_conj (parts : List (Dnf Rat)) :
    (conj parts).eval .exact v = parts.all (eval .exact v) := by
  rw [conj, eval_reduce (Comparison.exact_decides v _), eval_foldl_cross, eval_verum, Bool.true_and]

/-- Compared exactly, a disjunction of normal forms is true when one of them is. -/
theorem eval_disj (parts : List (Dnf Rat)) :
    (disj parts).eval .exact v = parts.any (eval .exact v) := by
  rw [disj, eval_reduce (Comparison.exact_decides v _), eval, List.any_flatten]
  rfl

/-! ### What is left of the clauses -/

section Within

variable {K : Type} [Scalar K] {P : Clause K → Prop} {d e : Dnf K}

/-- Dropping repetitions leaves only clauses of the normal form. -/
theorem Within.eraseDups (h : d.Within P) : Within (d.map (·.eraseDups)).eraseDups P := by
  intro term hterm c hc
  obtain ⟨t, ht, rfl⟩ := List.mem_map.mp ((eraseDups_sublist _).subset hterm)
  exact h t ht c ((eraseDups_sublist t).subset hc)

/-- Deciding constant clauses leaves only clauses of the normal form. -/
theorem Within.filterMap_reduceTerm (h : d.Within P) : Within (d.filterMap reduceTerm) P := by
  intro term hterm c hc
  obtain ⟨t, ht, hr⟩ := List.mem_filterMap.mp hterm
  rw [reduceTerm] at hr
  split at hr
  · cases hr
  · obtain rfl := Option.some.inj hr
    exact h t ht c (List.mem_filter.mp hc).1

/-- Reducing leaves only clauses of the normal form. -/
theorem Within.reduce (h : d.Within P) : d.reduce.Within P := by
  rw [Dnf.reduce]
  split
  · intro term hterm c hc
    obtain rfl := List.mem_singleton.mp hterm
    cases hc
  · exact h.filterMap_reduceTerm.eraseDups

/-- Distribution only joins terms. -/
theorem Within.cross (hd : d.Within P) (he : e.Within P) : (cross d e).Within P := by
  intro term hterm c hc
  obtain ⟨s, hs, hst⟩ := List.mem_flatMap.mp ((eraseDups_sublist _).subset hterm)
  obtain ⟨t, ht, rfl⟩ := List.mem_map.mp hst
  rcases List.mem_append.mp ((eraseDups_sublist _).subset hc) with hc | hc
  · exact hd s hs c hc
  · exact he t ht c hc

theorem Within.conj {parts : List (Dnf K)} (h : ∀ d ∈ parts, d.Within P) :
    (conj parts).Within P := by
  -- the fold starts at the true marker; the induction needs it to start anywhere
  suffices hs : ∀ start : Dnf K, start.Within P → (parts.foldl Dnf.cross start).Within P by
    refine (hs verum fun term hterm c hc => ?_).reduce
    obtain rfl := List.mem_singleton.mp hterm
    cases hc
  induction parts with
  | nil => exact fun start hstart => hstart
  | cons d parts ih =>
    intro start hstart
    exact ih (fun e he => h e (List.mem_cons_of_mem d he)) _ (hstart.cross (h d List.mem_cons_self))

theorem Within.disj {parts : List (Dnf K)} (h : ∀ d ∈ parts, d.Within P) :
    (disj parts).Within P := by
  refine Within.reduce fun term hterm => ?_
  obtain ⟨d, hd, hterm⟩ := List.mem_flatten.mp hterm
  exact h d hd term hterm

end Within

/-! ### The shape of reduced forms -/

/-- A reduced form is the true marker, or has only terms with clauses. -/
theorem IsReduced.eq_verum_or {K : Type} [Scalar K] {d : Dnf K} (h : d.IsReduced) :
    d = verum ∨ ∀ term ∈ d, term ≠ [] := by
  obtain ⟨given, rfl⟩ := h
  rw [reduce]
  split
  · exact .inl rfl
  · next hempty =>
    refine .inr fun term hterm => ?_
    obtain ⟨kept, hkept, rfl⟩ := List.mem_map.mp ((eraseDups_sublist _).subset hterm)
    cases kept with
    | nil => exact absurd (List.any_eq_true.mpr ⟨[], hkept, rfl⟩) hempty
    | cons c kept => rw [List.eraseDups_cons]; exact List.cons_ne_nil _ _

/-- No clause of a reduced form is constant. -/
theorem IsReduced.constant?_eq_none {K : Type} [Scalar K] {d : Dnf K} (h : d.IsReduced)
    {term : Term K} (hterm : term ∈ d) {c : Clause K} (hc : c ∈ term) : c.constant? = none := by
  obtain ⟨given, rfl⟩ := h
  rw [reduce] at hterm
  split at hterm
  · obtain rfl := List.mem_singleton.mp hterm
    cases hc
  · obtain ⟨kept, hkept, rfl⟩ := List.mem_map.mp ((eraseDups_sublist _).subset hterm)
    -- repetitions go last, so the clause is one that its term kept
    obtain ⟨t, -, hr⟩ := List.mem_filterMap.mp hkept
    have hmem := (eraseDups_sublist _).subset hc
    rw [reduceTerm] at hr
    split at hr
    · cases hr
    · obtain rfl := Option.some.inj hr
      exact eq_of_beq (List.mem_filter.mp hmem).2

/-! ### Reducing reduced forms -/

section Again

variable {K : Type} [Scalar K] {d e : Dnf K}

/-- No clause is constant. -/
def IsOpen (d : Dnf K) : Prop :=
  d.Within fun c => c.constant? = none

theorem IsReduced.isOpen (h : d.IsReduced) : d.IsOpen :=
  fun _ hterm _ hc => h.constant?_eq_none hterm hc

theorem IsOpen.sublist (h : d.IsOpen) (he : e.Sublist d) : e.IsOpen :=
  fun term hterm => h term (he.subset hterm)

/-- Nothing is decided where nothing is constant. -/
theorem IsOpen.filterMap_reduceTerm (h : d.IsOpen) : d.filterMap reduceTerm = d := by
  have hsome : ∀ term ∈ d, reduceTerm term = some term := by
    intro term hterm
    have hany : ¬ term.any (·.constant? == some false) = true := by
      rw [List.any_eq_true]
      rintro ⟨c, hc, hconst⟩
      rw [h term hterm c hc] at hconst
      cases hconst
    rw [reduceTerm, if_neg hany]
    exact congrArg some (List.filter_eq_self.mpr fun c hc => by rw [h term hterm c hc]; rfl)
  rw [List.filterMap_congr hsome, List.filterMap_some]

/-- Over any way of comparing, reducing an open form keeps the truth value. -/
theorem IsOpen.decides {d : Dnf Rat} (h : d.IsOpen) (cmp : Comparison) (v : Valuation) :
    cmp.Decides v d := by
  intro term hterm c hc b hb
  rw [h term hterm c hc] at hb
  cases hb

/-- Some of the terms of a reduced form are reduced again. -/
theorem IsReduced.reduce_sublist (h : d.IsReduced) (he : e.Sublist d) : e.reduce = e := by
  have hopen := h.isOpen.sublist he
  obtain ⟨given, rfl⟩ := h
  rw [reduce, hopen.filterMap_reduceTerm]
  rw [reduce] at he
  split at he
  · -- the only sublists of the true marker are itself and nothing
    rcases List.sublist_singleton.mp he with rfl | rfl <;> rfl
  · next hnone =>
    have hterms : ∀ term ∈ e, term ≠ [] ∧ term.eraseDups = term := by
      intro term hterm
      obtain ⟨t, ht, rfl⟩ := List.mem_map.mp ((eraseDups_sublist _).subset (he.subset hterm))
      refine ⟨fun hnil => hnone ?_, eraseDups_of_pairwise (pairwise_eraseDups t)⟩
      cases t with
      | nil => exact List.any_eq_true.mpr ⟨[], ht, rfl⟩
      | cons c t =>
        rw [List.eraseDups_cons] at hnil
        cases hnil
    have hany : ¬ e.any (·.isEmpty) = true := by
      rw [List.any_eq_true]
      rintro ⟨term, hterm, hnil⟩
      exact (hterms term hterm).1 (List.isEmpty_iff.mp hnil)
    have hmap : e.map (·.eraseDups) = e := by
      rw [List.map_congr_left fun term hterm => (hterms term hterm).2, List.map_id']
    rw [if_neg hany, hmap]
    exact eraseDups_of_pairwise ((pairwise_eraseDups _).sublist he)

theorem IsReduced.reduce_eq (h : d.IsReduced) : d.reduce = d :=
  h.reduce_sublist (List.Sublist.refl d)

/-- Reducing adds no terms. -/
theorem length_reduce_le (d : Dnf K) : d.reduce.length ≤ d.length := by
  have hterms : (d.filterMap reduceTerm).length ≤ d.length := List.length_filterMap_le _ _
  rw [reduce]
  split
  · next hempty =>
    obtain ⟨term, hterm, -⟩ := List.any_eq_true.mp hempty
    exact (List.length_pos_of_mem hterm).trans_le hterms
  · refine ((eraseDups_sublist _).length_le.trans ?_).trans hterms
    rw [List.length_map]

end Again

end Dnf

end RuleAudit
