import Mathlib.Algebra.Order.Ring.Rat
import RuleAudit.Clause
import RuleAudit.Proofs.Rational

/-!
# Numbers that keep what is written

Arithmetic with rounding obeys few laws, but what a rule is written and read back with is multiplied
by one, negated and added to zero only. `Scalar.Lawful` collects the laws of these operations. Zero
may have a sign, so two zeros are equal without being the same; other equal numbers are the same.
Constants are also compared by exact values, which tell zeros from other numbers
(`Scalar.ExactZero`).
-/

namespace RuleAudit

/-- Finite numbers are kept by one, by negation and by zero. -/
class Scalar.Lawful (K : Type) [Scalar K] : Prop where
  isFinite_zero : isFinite (0 : K) = true
  one_ne_zero : ((1 : K) == 0) = false
  /-- A finite number equals itself. -/
  beq_self {x : K} : isFinite x = true → (x == x) = true
  /-- Numbers that are equal and not zero are the same. -/
  eq_of_beq {x y : K} : (x == y) = true → (y == 0) = false → x = y
  isFinite_of_beq_zero {x : K} : (x == 0) = true → isFinite x = true
  /-- All zeros are equal to the same numbers. -/
  beq_of_zero {x : K} (y : K) : (x == 0) = true → (x == y) = ((0 : K) == y)
  beq_comm (x y : K) : (x == y) = (y == x)
  /-- A zero on the right side is like any other. -/
  holds_of_zero {x : K} (r : Relation) : (x == 0) = true → r.holds 0 x 0 = r.holds (0 : K) 0 0
  isFinite_neg {x : K} : isFinite x = true → isFinite (-x) = true
  neg_neg {x : K} : isFinite x = true → -(-x) = x
  neg_beq_zero {x : K} : isFinite x = true → (-x == 0) = (x == 0)
  mul_one {x : K} : isFinite x = true → x * 1 = x
  one_mul {x : K} : isFinite x = true → 1 * x = x
  mul_neg_one {x : K} : isFinite x = true → x * (-1) = -x
  zero_mul {x : K} : isFinite x = true → (0 * x == 0) = true
  add_of_zero {x y : K} : (x == 0) = true → (y == 0) = false → x + y = y
  add_zeros {x y : K} : (x == 0) = true → (y == 0) = true → (x + y == 0) = true

instance : Scalar.Lawful Rat where
  isFinite_zero := rfl
  one_ne_zero := rfl
  beq_self _ := beq_self_eq_true _
  eq_of_beq h _ := eq_of_beq h
  isFinite_of_beq_zero _ := rfl
  beq_of_zero y h := by rw [eq_of_beq h]
  beq_comm x y := Bool.beq_comm
  holds_of_zero r h := by rw [eq_of_beq h]
  isFinite_neg _ := rfl
  neg_neg _ := neg_neg _
  neg_beq_zero _ := by simp
  mul_one _ := mul_one _
  one_mul _ := one_mul _
  mul_neg_one _ := mul_neg_one _
  zero_mul _ := by simp
  add_of_zero h _ := by rw [eq_of_beq h, zero_add]
  add_zeros h h' := by rw [eq_of_beq h, eq_of_beq h', zero_add]; rfl

/-- A number is zero exactly when its exact value is. -/
class Scalar.ExactZero (K : Type) [Scalar K] : Prop where
  beq_zero_iff {x : K} {q : Rat} : toRat? x = some q → ((x == 0) = true ↔ q = 0)

instance : Scalar.ExactZero Rat where
  beq_zero_iff h := by
    obtain rfl := Option.some.inj h
    exact beq_iff_eq

end RuleAudit
