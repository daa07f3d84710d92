import RuleAudit.Proofs.Query.Answer

/-!
# A solver for concrete runs

An exact solver need not be able to solve programs: it may be told feasible points. It answers with
the first of them that is feasible; it sees by itself that a program is infeasible when two bounds
on one variable exclude each other; and whatever remains it decides by excluded middle. So it is
exact whatever it is told (`Solver.hinted_exact`), and a run in which nothing remains can be
evaluated.
-/

namespace RuleAudit

/-! ### Bounds that exclude each other -/

/-- A bound `coef * x ≤ bound` on one variable. -/
structure Limit where
  name : String
  coef : Rat
  bound : Rat

/-- The bound is respected. -/
def Limit.Holds (l : Limit) (x : String → Rat) : Prop :=
  l.coef * x l.name ≤ l.bound

/-- An upper bound lies below a lower bound on the same variable. -/
def Limit.Excludes (k l : Limit) : Prop :=
  k.name = l.name ∧ 0 < k.coef ∧ l.coef < 0 ∧ k.coef * l.bound < l.coef * k.bound

instance (k l : Limit) : Decidable (k.Excludes l) :=
  inferInstanceAs (Decidable (_ ∧ _ ∧ _ ∧ _))

theorem Limit.Excludes.not_holds {k l : Limit} (h : k.Excludes l) {x : String → Rat}
    (hk : k.Holds x) : ¬ l.Holds x := by
  obtain ⟨hname, hpos, hneg, hlt⟩ := h
  -- scaled by the coefficient of the other, both bound the same product
  rw [Holds, hname] at hk
  intro hl
  have hupper : l.coef * k.bound ≤ l.coef * (k.coef * x l.name) :=
    mul_le_mul_of_nonpos_left hk hneg.le
  have hlower : k.coef * (l.coef * x l.name) ≤ k.coef * l.bound :=
    mul_le_mul_of_nonneg_left hl hpos.le
  have hcomm : k.coef * (l.coef * x l.name) = l.coef * (k.coef * x l.name) := mul_left_comm _ _ _
  linarith

/-- The bounds of a row on a single variable. -/
def Row.limits (row : Row Rat) : List Limit :=
  match row.coefs with
  | [(n, a)] => match row.sense with
    | .le => [⟨n, a, row.rhs⟩]
    | .ge => [⟨n, -a, -row.rhs⟩]
    | .eq => [⟨n, a, row.rhs⟩, ⟨n, -a, -row.rhs⟩]
  | _ => []

/-- The bounds of a program on single variables. -/
def Program.limits (p : Program Rat) : List Limit :=
  p.vars.flatMap (fun d => [⟨d.name, 1, d.upper⟩, ⟨d.name, -1, -d.lower⟩]) ++
    p.rows.flatMap Row.limits

theorem Row.holds_of_mem_limits {row : Row Rat} {x : String → Rat} (h : row.Holds x) :
    ∀ l ∈ row.limits, l.Holds x := by
  intro l hl
  rw [limits] at hl
  split at hl
  · next n a hcoefs =>
    have hsum : row.sense.Holds (a * x n) row.rhs := by
      rw [Holds, lhs, hcoefs] at h
      simpa using h
    split at hl
    · next hsense =>
      rw [hsense] at hsum
      obtain rfl := List.mem_singleton.mp hl
      exact hsum
    · next hsense =>
      rw [hsense] at hsum
      obtain rfl := List.mem_singleton.mp hl
      have hge : row.rhs ≤ a * x n := hsum
      rw [Limit.Holds]
      linarith
    · next hsense =>
      rw [hsense] at hsum
      have heq : a * x n = row.rhs := hsum
      rcases List.mem_pair.mp hl with rfl | rfl <;> rw [Limit.Holds] <;> linarith
  · cases hl

theorem Program.Feasible.holds_of_mem_limits {p : Program Rat} {point : List (String × Rat)}
    (h : p.Feasible point) : ∀ l ∈ p.limits, l.Holds (pointAt point) := by
  refine List.forall_mem_append.mpr ⟨fun l hl => ?_, fun l hl => ?_⟩
  · obtain ⟨d, hd, hl⟩ := List.mem_flatMap.mp hl
    obtain ⟨-, hlower, hupper, -⟩ := h.get? hd
    rcases List.mem_pair.mp hl with rfl | rfl <;> rw [Limit.Holds] <;> linarith
  · obtain ⟨row, hrow, hl⟩ := List.mem_flatMap.mp hl
    exact Row.holds_of_mem_limits (h.rows row hrow) l hl

/-- Two bounds of a program exclude each other. -/
def Program.Clashes (p : Program Rat) : Prop :=
  ∃ k ∈ p.limits, ∃ l ∈ p.limits, k.Excludes l

instance (p : Program Rat) : Decidable p.Clashes :=
  inferInstanceAs (Decidable (∃ k ∈ p.limits, ∃ l ∈ p.limits, k.Excludes l))

theorem Program.Clashes.not_feasible {p : Program Rat} (h : p.Clashes)
    (point : List (String × Rat)) : ¬ p.Feasible point := by
  obtain ⟨k, hk, l, hl, hexcludes⟩ := h
  exact fun hpoint => hexcludes.not_holds (hpoint.holds_of_mem_limits k hk)
    (hpoint.holds_of_mem_limits l hl)

/-! ### The solver -/

open Classical in
/-- The solver that was told some points. -/
noncomputable def Solver.hinted (points : List (List (String × Rat))) : Solver Rat :=
  fun _ p => match points.find? fun point => decide (p.Feasible point) with
    | some point => .ok ⟨.feasible, point, "FEASIBLE"⟩
    | none => if p.Clashes then .ok ⟨.infeasible, [], "INFEASIBLE"⟩
      else if h : ∃ point, p.Feasible point then .ok ⟨.feasible, h.choose, "FEASIBLE"⟩
      else .ok ⟨.infeasible, [], "INFEASIBLE"⟩

/-- The solver is exact, whatever it was told. -/
theorem Solver.hinted_exact (points : List (List (String × Rat))) (settings : Settings Rat)
    (p : Program Rat) : (hinted points).ExactOn settings p := by
  rw [ExactOn, hinted]
  split
  · next point hpoint =>
    have hfeasible := List.find?_some hpoint
    exact ⟨_, rfl, .inl ⟨rfl, of_decide_eq_true hfeasible⟩⟩
  · split
    · next hclash => exact ⟨_, rfl, .inr ⟨rfl, hclash.not_feasible⟩⟩
    · split
      · next h => exact ⟨_, rfl, .inl ⟨rfl, h.choose_spec⟩⟩
      · next h => exact ⟨_, rfl, .inr ⟨rfl, not_exists.mp h⟩⟩

end RuleAudit
