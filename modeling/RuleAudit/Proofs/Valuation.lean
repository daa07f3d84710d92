import RuleAudit.Dnf.Holds
import RuleAudit.Proofs.Outcome
import RuleAudit.Proofs.Rational

/-!
# Truth at a valuation

A valuation gives every name a number and a label, so clauses, normal forms and expressions have a
truth value at it whatever they mention. An assignment gives values to some names only, and
evaluating on it can fail; it is read as a valuation. The main statements say that evaluation on
an assignment agrees with the truth value whenever it succeeds (`Expr.eval_of_holds`), and that it
succeeds when every variable in use has a value of its kind (`Expr.holds_eq_eval`).
-/

namespace RuleAudit

/-- A number and a label for every name; no label stands for one that no clause mentions. -/
structure Valuation where
  number : String → Rat
  label : String → Option String

/-! ### Truth values -/

section Truth

variable (cmp : Comparison) (v : Valuation)

/-- The value of the left side. -/
def LinearClause.sumAt (c : LinearClause Rat) : Rat :=
  (c.terms.map fun t => t.2 * v.number t.1).sum

/-- The label of the variable, if it has one, is among the labels of the clause. -/
def MembershipClause.lists (c : MembershipClause) : Bool :=
  match v.label c.subject with
  | none => false
  | some l => c.labels.contains l

/-- The truth value of a clause; data that are no clause are false. -/
def Clause.eval : Clause Rat → Bool
  | linear c => cmp c.relation (c.sumAt v) c.rhs
  | membership c => c.lists v != c.negated
  | foreign _ => false

/-- The truth value of a normal form. -/
def Dnf.eval (d : Dnf Rat) : Bool :=
  d.any fun term => term.all (Clause.eval cmp v)

namespace Expr

mutual
/-- The truth value of an expression; data that are no expression are false. -/
def eval : Expr Rat → Bool
  | atom c => c.eval cmp v
  | const d => d.truth
  | and args => evalAll args
  | or args => evalAny args
  | not e => !eval e
  | ifThen a c => !eval a || eval c
  | foreign _ => false

/-- All of several expressions are true. -/
def evalAll : List (Expr Rat) → Bool
  | [] => true
  | e :: rest => eval e && evalAll rest

/-- One of several expressions is true. -/
def evalAny : List (Expr Rat) → Bool
  | [] => false
  | e :: rest => eval e || evalAny rest
end

@[simp]
theorem evalAll_eq (es : List (Expr Rat)) : evalAll cmp v es = es.all (eval cmp v) := by
  induction es with
  | nil => rfl
  | cons e es ih => rw [evalAll, ih, List.all_cons]

@[simp]
theorem evalAny_eq (es : List (Expr Rat)) : evalAny cmp v es = es.any (eval cmp v) := by
  induction es with
  | nil => rfl
  | cons e es ih => rw [evalAny, ih, List.any_cons]

end Expr

end Truth

/-! ### Variables and their kinds -/

section Uses

variable {K : Type} [Scalar K]

/-- A value is one that a variable of the kind can have: a finite number; a label, or null for a
label that no clause mentions. -/
def VarKind.Admits : VarKind → Datum K → Prop
  | numeric, .int _ => True
  | numeric, .real x => Scalar.isFinite x = true
  | categorical, .text _ => True
  | categorical, .null => True
  | _, _ => False

/-- The variables of a clause, with the kind that it uses them with. -/
def Clause.uses : Clause K → List (String × VarKind)
  | linear c => c.vars.map (·, .numeric)
  | membership c => [(c.subject, .categorical)]
  | foreign _ => []

namespace Expr

mutual
/-- The clauses of an expression, and the data in it that are no expression, in the order of
evaluation. -/
def leaves : Expr K → List (Clause K ⊕ Datum K)
  | atom c => [.inl c]
  | const _ => []
  | and args => leavesEach args
  | or args => leavesEach args
  | not e => leaves e
  | ifThen a c => leaves a ++ leaves c
  | foreign d => [.inr d]

/-- The leaves of several expressions. -/
def leavesEach : List (Expr K) → List (Clause K ⊕ Datum K)
  | [] => []
  | e :: rest => leaves e ++ leavesEach rest
end

/-- The variables of an expression, with the kinds that it uses them with. -/
def uses (e : Expr K) : List (String × VarKind) :=
  e.leaves.flatMap (Sum.elim Clause.uses fun _ => [])

end Expr

/-- An assignment gives values of the right kinds to variables in use. -/
def Assignment.Suits (a : Assignment K) (uses : List (String × VarKind)) : Prop :=
  ∀ u ∈ uses, ∃ d, Assoc.get? u.1 a = some d ∧ u.2.Admits d

/-- What is bound to a numeric variable in use can be read as a number. -/
def Assignment.IsNumericOn (values : Assignment K) (uses : List (String × VarKind)) : Prop :=
  ∀ n, (n, .numeric) ∈ uses → ∀ v, Assoc.get? n values = some v → ∃ x, v.toNumber = .ok x

theorem Assignment.IsNumericOn.mono {values : Assignment K} {uses uses' : List (String × VarKind)}
    (h : values.IsNumericOn uses) (hu : uses' ⊆ uses) : values.IsNumericOn uses' :=
  fun n hn => h n (hu hn)

/-- Every variable in use has a value. -/
def Assignment.Covers (values : Assignment K) (uses : List (String × VarKind)) : Prop :=
  ∀ u ∈ uses, ∃ d, Assoc.get? u.1 values = some d

theorem Assignment.Covers.mono {K : Type} {values : Assignment K}
    {uses uses' : List (String × VarKind)} (h : values.Covers uses) (hu : uses' ⊆ uses) :
    values.Covers uses' :=
  fun u hmem => h u (hu hmem)

/-- The variables of a clause are those that it uses with some kind. -/
theorem Clause.mem_vars_iff {c : Clause K} {n : String} :
    n ∈ c.vars ↔ ∃ kind, (n, kind) ∈ c.uses := by
  cases c with
  | linear c =>
    constructor
    · intro hn
      exact ⟨.numeric, List.mem_map_of_mem hn⟩
    · rintro ⟨kind, hn⟩
      obtain ⟨m, hm, heq⟩ := List.mem_map.mp hn
      rwa [← (Prod.mk.inj heq).1]
  | membership c =>
    constructor
    · intro hn
      exact ⟨.categorical, List.mem_singleton.mpr (by rw [List.mem_singleton.mp hn])⟩
    · rintro ⟨kind, hn⟩
      exact List.mem_singleton.mpr (congrArg Prod.fst (List.mem_singleton.mp hn))
  | foreign d =>
    constructor
    · intro hn
      cases hn
    · rintro ⟨kind, hn⟩
      cases hn

/-- A normal form uses what its terms use. -/
theorem Dnf.uses_term_subset {d : Dnf K} {term : Term K} (hterm : term ∈ d) :
    term.flatMap Clause.uses ⊆ d.flatten.flatMap Clause.uses := by
  intro u hu
  obtain ⟨c, hc, hu⟩ := List.mem_flatMap.mp hu
  exact List.mem_flatMap.mpr ⟨c, List.mem_flatten.mpr ⟨term, hterm, hc⟩, hu⟩

theorem Dnf.uses_clause_subset {d : Dnf K} {term : Term K} (hterm : term ∈ d) {c : Clause K}
    (hc : c ∈ term) : c.uses ⊆ d.flatten.flatMap Clause.uses :=
  fun _ hu => Dnf.uses_term_subset hterm (List.mem_flatMap.mpr ⟨c, hc, hu⟩)

/-- Every variable has the kind that it is used with. -/
def Agrees (kinds : String → VarKind) (uses : List (String × VarKind)) : Prop :=
  ∀ u ∈ uses, kinds u.1 = u.2

theorem agrees_append {kinds : String → VarKind} {uses uses' : List (String × VarKind)} :
    Agrees kinds (uses ++ uses') ↔ Agrees kinds uses ∧ Agrees kinds uses' :=
  List.forall_mem_append

theorem Agrees.mono {kinds : String → VarKind} {uses uses' : List (String × VarKind)}
    (h : Agrees kinds uses) (hu : uses' ⊆ uses) : Agrees kinds uses' :=
  fun u hmem => h u (hu hmem)

/-- A clause is one of the two kinds of clauses. -/
def Clause.IsProper : Clause K → Prop
  | foreign _ => False
  | _ => True

end Uses

/-! ### Assignments as valuations -/

/-- The label that a value stands for. -/
def Datum.label? : Datum Rat → Option String
  | .null => none
  | d => some d.label

/-- The numbers and labels of an assignment; a name without a number has zero, and one without a
label none. -/
def Assignment.valuation (a : Assignment Rat) : Valuation where
  number n := ((a.value n).bind Datum.toNumber).toOption.getD 0
  label n := (Assoc.get? n a).bind Datum.label?

namespace Assignment

variable {a : Assignment Rat} {n : String}

theorem value_eq_ok {d : Datum Rat} : a.value n = .ok d ↔ Assoc.get? n a = some d := by
  unfold value
  cases Assoc.get? n a <;> simp

theorem number_valuation {d : Datum Rat} {x : Rat} (hd : a.value n = .ok d)
    (hx : d.toNumber = .ok x) : a.valuation.number n = x := by
  simp [valuation, hd, hx, Except.bind, Except.toOption]

theorem label_valuation {d : Datum Rat} (hd : a.value n = .ok d) :
    a.valuation.label n = d.label? := by
  simp [valuation, value_eq_ok.mp hd]

theorem exists_toNumber {d : Datum Rat} (hd : VarKind.numeric.Admits d) :
    ∃ x, d.toNumber = .ok x := by
  cases d <;> first | exact ⟨_, rfl⟩ | cases hd

namespace Suits

variable {uses : List (String × VarKind)} (h : a.Suits uses)

include h

theorem isNumericOn : a.IsNumericOn uses := by
  intro n hn v hv
  obtain ⟨d, hd, hadmits⟩ := h _ hn
  obtain rfl := Option.some.inj (hv.symm.trans hd)
  exact exists_toNumber hadmits

theorem covers : a.Covers uses := by
  intro u hu
  obtain ⟨d, hd, -⟩ := h u hu
  exact ⟨d, hd⟩

end Suits

end Assignment

/-! ### Evaluating clauses -/

namespace LinearClause

variable {a : Assignment Rat} {c : LinearClause Rat}

/-- Adding up the terms of a clause, from any number on. -/
private theorem sum_eq {terms : List (String × Rat)} {start total : Rat}
    (h : terms.foldlM (fun (total : Rat) (name, coef) => do
      return total + coef * (← (← a.value name).toNumber)) start = Except.ok total) :
    total = start + (terms.map fun t => t.2 * a.valuation.number t.1).sum := by
  induction terms generalizing start with
  | nil =>
    have hst : start = total := Except.ok.inj h
    simp [hst]
  | cons t terms ih =>
    rw [List.foldlM_cons, Outcome.bind_eq_ok] at h
    obtain ⟨next, hnext, h⟩ := h
    obtain ⟨d, hd, hnext⟩ := Outcome.bind_eq_ok.mp hnext
    obtain ⟨x, hx, hnext⟩ := Outcome.bind_eq_ok.mp hnext
    obtain rfl : start + t.2 * x = next := Except.ok.inj hnext
    rw [ih h, List.map_cons, List.sum_cons, Assignment.number_valuation hd hx, add_assoc]

theorem sumAt_of_sum {x : Rat} (h : c.sum a = .ok x) : c.sumAt a.valuation = x := by
  have hx : x = 0 + c.sumAt a.valuation := sum_eq h
  rw [hx, zero_add]

/-- The left side can be added up when every variable has a value that is read as a number. -/
theorem exists_sum_of_numbers
    (h : ∀ t ∈ c.terms, ∃ d x, a.value t.1 = .ok d ∧ d.toNumber = .ok x) :
    ∃ x, c.sum a = .ok x := by
  suffices hs : ∀ (terms : List (String × Rat)) (start : Rat),
      (∀ t ∈ terms, ∃ d x, a.value t.1 = .ok d ∧ d.toNumber = .ok x) →
      ∃ x, terms.foldlM (fun (total : Rat) (name, coef) => do
        return total + coef * (← (← a.value name).toNumber)) start = Except.ok x from hs c.terms 0 h
  intro terms
  induction terms with
  | nil => exact fun start _ => ⟨start, rfl⟩
  | cons t terms ih =>
    intro start ht
    obtain ⟨n, q⟩ := t
    obtain ⟨d, x, hd, hx⟩ := ht (n, q) List.mem_cons_self
    obtain ⟨y, hy⟩ := ih (start + q * x) fun u hu => ht u (List.mem_cons_of_mem _ hu)
    refine ⟨y, ?_⟩
    simp only [List.foldlM_cons, hd, hx, Outcome.ok_bind]
    exact hy

theorem exists_sum (hnumeric : a.IsNumericOn (Clause.linear c).uses)
    (hcovers : a.Covers (Clause.linear c).uses) : ∃ x, c.sum a = .ok x := by
  refine exists_sum_of_numbers fun t ht => ?_
  have hu : (t.1, .numeric) ∈ (Clause.linear c).uses :=
    List.mem_map_of_mem (List.mem_map_of_mem (f := (·.1)) ht)
  obtain ⟨d, hd⟩ := hcovers _ hu
  obtain ⟨x, hx⟩ := hnumeric t.1 hu d hd
  exact ⟨d, x, Assignment.value_eq_ok.mpr hd, hx⟩

end LinearClause

namespace Clause

variable {a : Assignment Rat} {c : Clause Rat} {tol : Rat}

/-- A clause that can be evaluated has the truth value that comes out. -/
theorem eval_of_holds {b : Bool} (h : c.holds a tol = .ok b) :
    c.eval (.slack tol) a.valuation = b := by
  cases c with
  | linear c =>
    obtain ⟨x, hx, h⟩ := Outcome.bind_eq_ok.mp h
    obtain rfl : c.relation.holds x c.rhs tol = b := Except.ok.inj h
    rw [eval, LinearClause.sumAt_of_sum hx, Comparison.slack]
  | membership c =>
    obtain ⟨d, hd, h⟩ := Outcome.bind_eq_ok.mp h
    obtain rfl : c.accepts d = b := Except.ok.inj h
    rw [eval, MembershipClause.lists, Assignment.label_valuation hd]
    cases d <;> rfl
  | foreign d => cases h

/-- A clause can be evaluated when its variables have values that can be read. -/
theorem exists_holds_of_covers (hc : c.IsProper) (hnumeric : a.IsNumericOn c.uses)
    (hcovers : a.Covers c.uses) : ∃ b, c.holds a tol = .ok b := by
  cases c with
  | linear c =>
    obtain ⟨x, hx⟩ := LinearClause.exists_sum hnumeric hcovers
    exact ⟨_, by rw [holds, hx]; rfl⟩
  | membership c =>
    obtain ⟨d, hd⟩ := hcovers _ List.mem_cons_self
    exact ⟨_, by rw [holds, Assignment.value_eq_ok.mpr hd]; rfl⟩
  | foreign d => cases hc

theorem exists_holds (hc : c.IsProper) (h : a.Suits c.uses) : ∃ b, c.holds a tol = .ok b :=
  exists_holds_of_covers hc h.isNumericOn h.covers

end Clause

/-! ### Evaluating expressions -/

namespace Expr

variable {a : Assignment Rat} {tol : Rat}

mutual
/-- An expression that can be evaluated has the truth value that comes out. -/
theorem eval_of_holds : ∀ {e : Expr Rat} {b : Bool}, e.holds a tol = .ok b →
    e.eval (.slack tol) a.valuation = b
  | atom c, b, h => Clause.eval_of_holds h
  | const d, b, h => Except.ok.inj h
  | and args, b, h => evalAll_of_holdsAll h
  | or args, b, h => evalAny_of_holdsAny h
  | not e, b, h => by
    obtain ⟨x, hx, h⟩ := Outcome.bind_eq_ok.mp h
    rw [eval, eval_of_holds hx]
    exact Except.ok.inj h
  | ifThen e f, b, h => by
    obtain ⟨x, hx, h⟩ := Outcome.bind_eq_ok.mp h
    rw [eval, eval_of_holds hx]
    cases x with
    | true => exact eval_of_holds h
    | false => exact Except.ok.inj h
  | foreign d, b, h => by cases h

theorem evalAll_of_holdsAll : ∀ {es : List (Expr Rat)} {b : Bool}, holdsAll es a tol = .ok b →
    evalAll (.slack tol) a.valuation es = b
  | [], b, h => Except.ok.inj h
  | e :: es, b, h => by
    obtain ⟨x, hx, h⟩ := Outcome.bind_eq_ok.mp h
    rw [evalAll, eval_of_holds hx]
    cases x with
    | true => exact evalAll_of_holdsAll h
    | false => exact Except.ok.inj h

theorem evalAny_of_holdsAny : ∀ {es : List (Expr Rat)} {b : Bool}, holdsAny es a tol = .ok b →
    evalAny (.slack tol) a.valuation es = b
  | [], b, h => Except.ok.inj h
  | e :: es, b, h => by
    obtain ⟨x, hx, h⟩ := Outcome.bind_eq_ok.mp h
    rw [evalAny, eval_of_holds hx]
    cases x with
    | true => exact Except.ok.inj h
    | false => exact evalAny_of_holdsAny h
end

mutual
/-- An expression can be evaluated when its leaves are clauses that can be. -/
theorem exists_holds : ∀ {e : Expr Rat},
    (∀ leaf ∈ e.leaves, ∃ c b, leaf = .inl c ∧ c.holds a tol = .ok b) →
    ∃ b, e.holds a tol = .ok b
  | atom c, h => by
    obtain ⟨_, b, ⟨⟩, hb⟩ := h _ List.mem_cons_self
    exact ⟨b, hb⟩
  | const d, _ => ⟨d.truth, rfl⟩
  | and args, h => exists_holdsAll (l := args) h
  | or args, h => exists_holdsAny (l := args) h
  | not e, h => by
    obtain ⟨b, hb⟩ := exists_holds (e := e) h
    exact ⟨!b, by rw [holds, hb]; rfl⟩
  | ifThen e f, h => by
    obtain ⟨b, hb⟩ := exists_holds (e := e) fun x hx => h x (List.mem_append_left _ hx)
    obtain ⟨b', hb'⟩ := exists_holds (e := f) fun x hx => h x (List.mem_append_right _ hx)
    rw [holds, hb, Outcome.ok_bind]
    cases b with
    | true => exact ⟨b', hb'⟩
    | false => exact ⟨true, rfl⟩
  | foreign d, h => by
    obtain ⟨_, _, ⟨⟩, _⟩ := h _ List.mem_cons_self

theorem exists_holdsAll : ∀ {l : List (Expr Rat)},
    (∀ leaf ∈ leavesEach l, ∃ c b, leaf = .inl c ∧ c.holds a tol = .ok b) →
    ∃ b, holdsAll l a tol = .ok b
  | [], _ => ⟨true, rfl⟩
  | e :: es, h => by
    obtain ⟨b, hb⟩ := exists_holds (e := e) fun x hx => h x (List.mem_append_left _ hx)
    obtain ⟨b', hb'⟩ := exists_holdsAll (l := es) fun x hx => h x (List.mem_append_right _ hx)
    rw [holdsAll, hb, Outcome.ok_bind]
    cases b with
    | true => exact ⟨b', hb'⟩
    | false => exact ⟨false, rfl⟩

theorem exists_holdsAny : ∀ {l : List (Expr Rat)},
    (∀ leaf ∈ leavesEach l, ∃ c b, leaf = .inl c ∧ c.holds a tol = .ok b) →
    ∃ b, holdsAny l a tol = .ok b
  | [], _ => ⟨false, rfl⟩
  | e :: es, h => by
    obtain ⟨b, hb⟩ := exists_holds (e := e) fun x hx => h x (List.mem_append_left _ hx)
    obtain ⟨b', hb'⟩ := exists_holdsAny (l := es) fun x hx => h x (List.mem_append_right _ hx)
    rw [holdsAny, hb, Outcome.ok_bind]
    cases b with
    | true => exact ⟨true, rfl⟩
    | false => exact ⟨b', hb'⟩
end

/-- The leaves of an expression are clauses. -/
def IsProper {K : Type} [Scalar K] (e : Expr K) : Prop :=
  ∀ leaf ∈ e.leaves, ∃ c : Clause K, leaf = .inl c ∧ c.IsProper

/-- An expression on values that can be read for all its variables is its truth value. -/
theorem holds_eq_eval_of_covers {e : Expr Rat} (he : e.IsProper) (hnumeric : a.IsNumericOn e.uses)
    (hcovers : a.Covers e.uses) :
    e.holds a tol = .ok (e.eval (.slack tol) a.valuation) := by
  obtain ⟨b, hb⟩ : ∃ b, e.holds a tol = .ok b := by
    refine exists_holds fun leaf hleaf => ?_
    obtain ⟨c, rfl, hc⟩ := he leaf hleaf
    have huses : c.uses ⊆ e.uses := fun u hu => List.mem_flatMap.mpr ⟨_, hleaf, hu⟩
    obtain ⟨b, hb⟩ : ∃ b, c.holds a tol = .ok b :=
      Clause.exists_holds_of_covers hc (hnumeric.mono huses) (hcovers.mono huses)
    exact ⟨c, b, rfl, hb⟩
  rw [hb, eval_of_holds hb]

/-- Evaluating an expression on an assignment that suits it gives its truth value. -/
theorem holds_eq_eval {e : Expr Rat} (he : e.IsProper) (h : a.Suits e.uses) :
    e.holds a tol = .ok (e.eval (.slack tol) a.valuation) :=
  holds_eq_eval_of_covers he h.isNumericOn h.covers

end Expr

/-! ### Valuations that agree -/

/-- Two valuations give the variables in use the same values. -/
def Valuation.AgreesOn (v w : Valuation) (uses : List (String × VarKind)) : Prop :=
  ∀ u ∈ uses, match u.2 with
    | .numeric => v.number u.1 = w.number u.1
    | .categorical => v.label u.1 = w.label u.1

section AgreesOn

variable {v w : Valuation} (cmp : Comparison)

theorem Valuation.AgreesOn.mono {uses uses' : List (String × VarKind)} (h : v.AgreesOn w uses)
    (hu : uses' ⊆ uses) : v.AgreesOn w uses' :=
  fun u hmem => h u (hu hmem)

theorem Clause.eval_agree {c : Clause Rat} (h : v.AgreesOn w c.uses) :
    c.eval cmp v = c.eval cmp w := by
  cases c with
  | linear c =>
    have hsum : c.sumAt v = c.sumAt w := by
      refine congrArg List.sum (List.map_congr_left fun t ht => ?_)
      have hnumber : v.number t.1 = w.number t.1 :=
        h (t.1, .numeric) (List.mem_map_of_mem (List.mem_map_of_mem (f := (·.1)) ht))
      rw [hnumber]
    rw [eval, eval, hsum]
  | membership c =>
    have hlabel : v.label c.subject = w.label c.subject :=
      h (c.subject, .categorical) (List.mem_singleton_self _)
    rw [eval, eval, MembershipClause.lists, MembershipClause.lists, hlabel]
  | foreign d => rfl

theorem Dnf.eval_agree {d : Dnf Rat} (h : v.AgreesOn w (d.flatten.flatMap Clause.uses)) :
    d.eval cmp v = d.eval cmp w := by
  rw [eval, eval, Bool.eq_iff_iff, List.any_eq_true, List.any_eq_true]
  refine exists_congr fun term => and_congr_right fun hterm => ?_
  rw [List.all_eq_true, List.all_eq_true]
  refine forall₂_congr fun c hc => ?_
  rw [Clause.eval_agree cmp (h.mono (uses_clause_subset hterm hc))]

namespace Expr

mutual
/-- The truth value of an expression depends on the variables in use only. -/
theorem eval_agree : ∀ {e : Expr Rat}, v.AgreesOn w e.uses → e.eval cmp v = e.eval cmp w
  | atom c, h => by
    have huses : (atom c).uses = c.uses := by simp [uses, leaves]
    exact Clause.eval_agree cmp (huses ▸ h)
  | const d, _ => rfl
  | and args, h => eval_agreeAll h
  | or args, h => eval_agreeAny h
  | not e, h => by rw [eval, eval, eval_agree (e := e) h]
  | ifThen a c, h => by
    have huses : (ifThen a c).uses = a.uses ++ c.uses := List.flatMap_append
    rw [huses] at h
    rw [eval, eval, eval_agree (e := a) (h.mono (List.subset_append_left _ _)),
      eval_agree (e := c) (h.mono (List.subset_append_right _ _))]
  | foreign d, _ => rfl

theorem eval_agreeAll : ∀ {l : List (Expr Rat)},
    v.AgreesOn w ((leavesEach l).flatMap (Sum.elim Clause.uses fun _ => [])) →
      evalAll cmp v l = evalAll cmp w l
  | [], _ => rfl
  | e :: l, h => by
    rw [leavesEach, List.flatMap_append] at h
    rw [evalAll, evalAll, eval_agree (e := e) (h.mono (List.subset_append_left _ _)),
      eval_agreeAll (l := l) (h.mono (List.subset_append_right _ _))]

theorem eval_agreeAny : ∀ {l : List (Expr Rat)},
    v.AgreesOn w ((leavesEach l).flatMap (Sum.elim Clause.uses fun _ => [])) →
      evalAny cmp v l = evalAny cmp w l
  | [], _ => rfl
  | e :: l, h => by
    rw [leavesEach, List.flatMap_append] at h
    rw [evalAny, evalAny, eval_agree (e := e) (h.mono (List.subset_append_left _ _)),
      eval_agreeAny (l := l) (h.mono (List.subset_append_right _ _))]
end

end Expr

end AgreesOn

/-! ### Valuations as assignments -/

namespace Valuation

variable (v : Valuation)

/-- The value of a variable of a kind; null is for no label. -/
def datum (name : String) : VarKind → Datum Rat
  | .numeric => .real (v.number name)
  | .categorical => match v.label name with
    | some l => .text l
    | none => .null

/-- The values of the variables in use. -/
def assignment (uses : List (String × VarKind)) : Assignment Rat :=
  uses.map fun u => (u.1, v.datum u.1 u.2)

variable {v} {a : Assignment Rat} {uses : List (String × VarKind)}

/-- An assignment that gives the variables in use the values of a valuation reads as this. -/
theorem agreesOn_of_get? (h : ∀ u ∈ uses, Assoc.get? u.1 a = some (v.datum u.1 u.2)) :
    a.valuation.AgreesOn v uses := by
  rintro ⟨n, k⟩ hu
  have hvalue := Assignment.value_eq_ok.mpr (h (n, k) hu)
  cases k with
  | numeric => exact Assignment.number_valuation hvalue rfl
  | categorical =>
    refine (Assignment.label_valuation hvalue).trans ?_
    dsimp only [datum]
    cases v.label n <;> rfl

theorem suits_of_get? (h : ∀ u ∈ uses, Assoc.get? u.1 a = some (v.datum u.1 u.2)) :
    a.Suits uses := by
  rintro ⟨n, k⟩ hu
  refine ⟨_, h (n, k) hu, ?_⟩
  cases k with
  | numeric => exact Rational.isFinite_eq _
  | categorical =>
    dsimp only [datum]
    cases v.label n <;> exact trivial

theorem get?_assignment {kinds : String → VarKind} (h : Agrees kinds uses) :
    ∀ u ∈ uses, Assoc.get? u.1 (v.assignment uses) = some (v.datum u.1 u.2) := by
  intro u hu
  have hnames : v.assignment uses =
      (uses.map (·.1)).map fun n => (n, v.datum n (kinds n)) := by
    rw [assignment, List.map_map]
    refine List.map_congr_left fun u hu => ?_
    rw [Function.comp_apply, h u hu]
  rw [hnames, Assoc.get?_map_of_mem _ (List.mem_map_of_mem (f := (·.1)) hu), h u hu]

end Valuation

end RuleAudit
