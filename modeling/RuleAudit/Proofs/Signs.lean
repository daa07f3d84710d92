import RuleAudit.Proofs.Dnf.Natural
import RuleAudit.Proofs.Scalar

/-!
# Signs of zeros

A zero can have a sign, which no comparison sees. Forgetting the sign of a right side changes no
clause in the sense of equality, and so commutes with normalising (`Clause.isNatural_dropSign`).
Equal clauses differ in nothing else (`Clause.dropSign_eq_of_beq`).
-/

namespace RuleAudit

variable {K : Type} [Scalar K]

/-- The number, with a zero for every zero. -/
def Scalar.dropSign (x : K) : K :=
  if x == 0 then 0 else x

/-- The clause with a right side that is no signed zero. -/
def LinearClause.dropSign (c : LinearClause K) : LinearClause K :=
  { c with rhs := Scalar.dropSign c.rhs }

/-- The clause with a right side that is no signed zero. -/
def Clause.dropSign : Clause K → Clause K
  | linear c => linear c.dropSign
  | c => c

/-- The expression without signed zeros on right sides. -/
abbrev Expr.dropSigns (e : Expr K) : Expr K :=
  e.mapClauses Clause.dropSign

theorem Clause.uses_dropSign (c : Clause K) : c.dropSign.uses = c.uses := by
  cases c <;> rfl

variable [Scalar.Lawful K]

namespace Scalar

theorem zero_beq_zero : ((0 : K) == 0) = true :=
  Lawful.beq_self Lawful.isFinite_zero

theorem zero_add {x : K} (h : (x == 0) = false) : 0 + x = x :=
  Lawful.add_of_zero zero_beq_zero h

theorem dropSign_beq (x y : K) : (dropSign x == dropSign y) = (x == y) := by
  have hdrop : ∀ x y : K, (dropSign x == y) = (x == y) := by
    intro x y
    unfold dropSign
    split
    · next hx => exact (Lawful.beq_of_zero y hx).symm
    · rfl
  rw [hdrop, Lawful.beq_comm, hdrop, Lawful.beq_comm]

theorem beq_of_dropSign {x y : K} (hy : isFinite y = true) (h : dropSign x = dropSign y) :
    (x == y) = true := by
  rw [← dropSign_beq, h, dropSign_beq]
  exact Lawful.beq_self hy

theorem beq_zero_congr {x y : K} (h : (x == y) = true) : (x == 0) = (y == 0) := by
  have hzero {x y : K} (h : (x == y) = true) (hx : (x == 0) = true) : (y == 0) = true := by
    rw [Lawful.beq_of_zero y hx] at h
    rw [Lawful.beq_comm]
    exact h
  exact Bool.eq_iff_iff.mpr ⟨hzero h, hzero (Lawful.beq_comm x y ▸ h)⟩

/-- Equal numbers are the same up to the sign of a zero. -/
theorem dropSign_congr {x y : K} (h : (x == y) = true) : dropSign x = dropSign y := by
  rw [dropSign, dropSign, ← beq_zero_congr h]
  split
  · rfl
  · next hx =>
    rw [beq_zero_congr h, Bool.not_eq_true] at hx
    exact Lawful.eq_of_beq h hx

theorem check_dropSign (q : Quantity) (x : K) :
    q.check (dropSign x) (.real (dropSign x)) = dropSign <$> q.check x (.real x) := by
  unfold dropSign
  split
  · next h =>
    rw [Quantity.check, Quantity.check, if_pos Lawful.isFinite_zero,
      if_pos (Lawful.isFinite_of_beq_zero h)]
    exact congrArg Except.ok (if_pos h).symm
  · next h =>
    rw [Quantity.check]
    split
    · exact congrArg Except.ok (if_neg h).symm
    · rfl

end Scalar

theorem LinearClause.rebuild_dropSign (c : LinearClause K) (keep : String → Bool) (r : Relation) :
    c.dropSign.rebuild keep r c.dropSign.rhs = dropSign <$> c.rebuild keep r c.rhs := by
  rw [rebuild, rebuild, map_bind]
  refine bind_congr fun _ => ?_
  rw [dropSign, Scalar.check_dropSign, bind_map_left, map_bind]
  rfl

/-- Steps that come out changed in the same way. -/
theorem mapM_map_eq {ε α β γ : Type} {f : α → Except ε β} {g : α → Except ε γ} {φ : γ → β}
    (h : ∀ a, f a = φ <$> g a) (l : List α) : l.mapM f = List.map φ <$> l.mapM g := by
  induction l with
  | nil => rfl
  | cons a l ih =>
    simp only [List.mapM_cons, h, ih, bind_map_left, map_bind, map_pure, List.map_cons]

/-- **Normal forms do not see the sign of a zero.** -/
theorem Clause.isNatural_dropSign : IsNatural (dropSign (K := K)) where
  beq_eq c d := by
    cases c <;> cases d <;> try rfl
    case linear c d =>
      have hbeq : ∀ c d : LinearClause K, (linear c == linear d) =
          (c.terms == d.terms && c.relation == d.relation && c.rhs == d.rhs) := fun _ _ => rfl
      rw [dropSign, dropSign, hbeq, hbeq]
      exact congrArg (_ && ·) (Scalar.dropSign_beq c.rhs d.rhs)
  constant?_eq c := by
    cases c with
    | linear c =>
      have hholds : c.relation.holds 0 (Scalar.dropSign c.rhs) 0 = c.relation.holds 0 c.rhs 0 := by
        unfold Scalar.dropSign
        split
        · next h => exact (Scalar.Lawful.holds_of_zero c.relation h).symm
        · rfl
      exact congrArg (fun b => if c.terms.isEmpty then some b else none) hholds
    | membership c => rfl
    | foreign v => rfl
  register_eq rule census c := by cases c <;> rfl
  negate_eq c := by
    cases c with
    | linear c =>
      refine mapM_map_eq (φ := List.map dropSign) (fun r => ?_) c.relation.negate
      rw [LinearClause.rebuild_dropSign, bind_map_left, map_bind]
      rfl
    | membership c => rfl
    | foreign v => rfl

/-- Coefficients that are equal are the same, since they are not zero. -/
theorem LinearClause.terms_eq_of_beq {s t : List (String × K)} (ht : ∀ p ∈ t, (p.2 == 0) = false)
    (h : (s == t) = true) : s = t := by
  induction s generalizing t with
  | nil =>
    cases t with
    | nil => rfl
    | cons q t => cases h
  | cons p s ih =>
    cases t with
    | nil => cases h
    | cons q t =>
      obtain ⟨hq, ht⟩ := List.forall_mem_cons.mp ht
      rw [List.cons_beq_cons, Bool.and_eq_true] at h
      have hpair : (p.1 == q.1 && p.2 == q.2) = true := h.1
      rw [Bool.and_eq_true] at hpair
      rw [ih ht h.2, Prod.ext (LawfulBEq.eq_of_beq hpair.1) (Scalar.Lawful.eq_of_beq hpair.2 hq)]

/-- Equal clauses differ in the sign of a zero at most. -/
theorem Clause.dropSign_eq_of_beq {c d : Clause K} (hc : c.IsProper) (h : (c == d) = true) :
    c.dropSign = d.dropSign := by
  cases c with
  | linear c =>
    cases d with
    | linear d =>
      have hparts : (c.terms == d.terms && c.relation == d.relation && c.rhs == d.rhs) = true := h
      rw [Bool.and_eq_true, Bool.and_eq_true] at hparts
      obtain ⟨⟨hterms, hrelation⟩, hrhs⟩ := hparts
      refine congrArg linear ?_
      rw [LinearClause.dropSign, LinearClause.dropSign, LinearClause.mk.injEq]
      exact ⟨LinearClause.terms_eq_of_beq d.nonzero hterms, LawfulBEq.eq_of_beq hrelation,
        Scalar.dropSign_congr hrhs⟩
    | _ => cases h
  | membership c =>
    cases d with
    | membership d =>
      have hsame : (c == d) = true := h
      rw [LawfulBEq.eq_of_beq hsame]
    | _ => cases h
  | foreign v => cases hc

/-- Expressions with the same normal form but for signs have normal forms together. -/
theorem Expr.exists_toDnf_of_dropSigns {e f : Expr K} {rule : Datum K} {d : Dnf K}
    (h : f.dropSigns.toDnf rule = e.dropSigns.toDnf rule) (hd : e.toDnf rule = .ok d) :
    ∃ d', f.toDnf rule = .ok d' ∧ d'.mapClauses Clause.dropSign = d.mapClauses Clause.dropSign := by
  rw [toDnf_mapClauses Clause.isNatural_dropSign, toDnf_mapClauses Clause.isNatural_dropSign,
    hd] at h
  cases hf : f.toDnf rule with
  | error err =>
    rw [hf] at h
    cases h
  | ok d' =>
    rw [hf] at h
    exact ⟨d', rfl, Except.ok.inj h⟩

/-! ### Rationals -/

theorem Clause.dropSign_eq_self (c : Clause Rat) : c.dropSign = c := by
  cases c with
  | linear c =>
    have hrhs : Scalar.dropSign c.rhs = c.rhs := by
      unfold Scalar.dropSign
      split
      · next h => exact (eq_of_beq h).symm
      · rfl
    exact congrArg (fun x => linear { c with rhs := x }) hrhs
  | membership c => rfl
  | foreign v => rfl

theorem Dnf.mapClauses_dropSign (d : Dnf Rat) : d.mapClauses Clause.dropSign = d := by
  rw [mapClauses, funext Clause.dropSign_eq_self]
  exact List.map_id'' List.map_id' d

mutual
/-- The rational zero has no sign. -/
theorem Expr.dropSigns_eq_self : ∀ e : Expr Rat, e.dropSigns = e
  | atom c => congrArg atom c.dropSign_eq_self
  | const _ => rfl
  | and args => congrArg and (dropSignsEach_eq_self args)
  | or args => congrArg or (dropSignsEach_eq_self args)
  | not e => congrArg not (dropSigns_eq_self e)
  | ifThen a c => congrArg₂ ifThen (dropSigns_eq_self a) (dropSigns_eq_self c)
  | foreign _ => rfl

theorem Expr.dropSignsEach_eq_self :
    ∀ es : List (Expr Rat), mapClausesEach Clause.dropSign es = es
  | [] => rfl
  | e :: rest => congrArg₂ List.cons (dropSigns_eq_self e) (dropSignsEach_eq_self rest)
end

end RuleAudit
