import Mathlib.Algebra.BigOperators.Group.List.Basic
import Mathlib.Algebra.Order.Group.Abs
import Mathlib.Algebra.Order.Ring.Rat
import Mathlib.Tactic.Linarith
import RuleAudit.Clause

/-!
# Exact numbers

Over the rationals every number is finite and is its own exact value, and comparing with no slack is
comparing. The relations of a clause are read in two ways: exactly, or with a margin that keeps the
strict ones away from their boundary.
-/

namespace RuleAudit

namespace Rational

@[simp]
theorem isFinite_eq (q : Rat) : Scalar.isFinite q = true := rfl

@[simp]
theorem abs_eq (q : Rat) : Scalar.abs q = |q| := by
  unfold Scalar.abs
  split
  · next h => exact (abs_of_neg h).symm
  · next h => exact (abs_of_nonneg (not_lt.mp h)).symm

instance lawfulBEq : LawfulBEq Rat :=
  inferInstanceAs (@LawfulBEq Rat instBEqOfDecidableEq)

end Rational

/-- A way to compare the two sides of a linear clause. -/
abbrev Comparison := Relation → Rat → Rat → Bool

namespace Comparison

/-- The relations that include the boundary accept `tol` of slack. -/
def slack (tol : Rat) : Comparison := fun r lhs rhs => r.holds lhs rhs tol

/-- Without slack. -/
def exact : Comparison := slack 0

/-- Strict relations keep a distance of `eps` from the boundary. -/
def margin (eps : Rat) : Comparison
  | .le, lhs, rhs => decide (lhs ≤ rhs)
  | .lt, lhs, rhs => decide (lhs ≤ rhs - eps)
  | .eq, lhs, rhs => decide (lhs = rhs)
  | .ge, lhs, rhs => decide (rhs ≤ lhs)
  | .gt, lhs, rhs => decide (rhs + eps ≤ lhs)

theorem exact_eq (r : Relation) (x y : Rat) :
    exact r x y = match r with
      | .le => decide (x ≤ y)
      | .lt => decide (x < y)
      | .eq => decide (x = y)
      | .ge => decide (y ≤ x)
      | .gt => decide (y < x) := by
  cases r <;> simp [exact, slack, Relation.holds, sub_eq_zero]

/-- What holds with a margin holds. -/
theorem exact_of_margin {eps : Rat} (heps : 0 < eps) {r : Relation} {x y : Rat}
    (h : margin eps r x y = true) : exact r x y = true := by
  rw [exact_eq]
  cases r <;> simp only [margin, decide_eq_true_eq] at h ⊢ <;> linarith

/-- Only strict relations have a margin. -/
theorem margin_eq_exact (eps : Rat) {r : Relation} (hr : r.isStrict = false) (x y : Rat) :
    margin eps r x y = exact r x y := by
  rw [exact_eq]
  cases r <;> first | rfl | cases hr

end Comparison

end RuleAudit
