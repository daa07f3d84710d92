import Mathlib.Algebra.Order.Ring.Rat
import RuleAudit.Clause.Build
import RuleAudit.Proofs.Outcome
import RuleAudit.Proofs.Rational

/-!
# Making clauses

A clause comes out with the content that it was made with: coefficients of one name are added up,
so the left side keeps its value, and content that is in its one form already is kept as it is.
-/

namespace RuleAudit

open Outcome

variable {K : Type} [Scalar K]

/-! ### Labels -/

namespace MembershipClause

theorem insertLabel_of_forall_lt {label : String} {ls : List String} (h : ∀ l ∈ ls, l < label) :
    insertLabel label ls = ls ++ [label] := by
  induction ls with
  | nil => rfl
  | cons l ls ih =>
    obtain ⟨hl, hls⟩ := List.forall_mem_cons.mp h
    rw [insertLabel, if_neg (Std.not_lt.mpr (Std.le_of_lt hl)), if_neg (Std.ne_of_lt hl).symm,
      ih hls, List.cons_append]

/-- Sorting ascending labels changes nothing. -/
theorem sortLabels_eq_self {ls : List String} (h : ls.Pairwise (· < ·)) : sortLabels ls = ls := by
  suffices hs : ∀ front, (front ++ ls).Pairwise (· < ·) →
      ls.foldl (fun ls l => insertLabel l ls) front = front ++ ls from hs [] h
  clear h
  induction ls with
  | nil => exact fun front _ => (List.append_nil front).symm
  | cons l ls ih =>
    intro front h
    have hfront : ∀ k ∈ front, k < l := fun k hk =>
      (List.pairwise_append.mp h).2.2 k hk l List.mem_cons_self
    rw [List.append_cons] at h
    rw [List.foldl_cons, insertLabel_of_forall_lt hfront, ih _ h, List.append_assoc,
      List.singleton_append]

/-- A clause is made of its own content. -/
theorem ofLabels_self (c : MembershipClause) :
    ofLabels ⟨c.subject, c.named⟩ c.labels c.negated = c := by
  rw [ofLabels]
  congr
  exact sortLabels_eq_self c.ascending

end MembershipClause

/-! ### Coefficients -/

namespace LinearClause

variable {pairs : List (String × K)}

theorem accumulate_of_forall_lt {name : String} {a : K} {l : List (String × K)}
    (h : ∀ t ∈ l, t.1 < name) : accumulate name a l = l ++ [(name, 0 + a)] := by
  induction l with
  | nil => rfl
  | cons t l ih =>
    obtain ⟨ht, hl⟩ := List.forall_mem_cons.mp h
    rw [accumulate, if_neg (Std.not_lt.mpr (Std.le_of_lt ht)), if_neg (Std.ne_of_lt ht).symm,
      ih hl, List.cons_append]

/-- Collecting under ascending names adds each coefficient to zero. -/
theorem collect_of_ascending (h : pairs.Pairwise fun s t => s.1 < t.1) :
    collect pairs = pairs.map fun t => (t.1, 0 + t.2) := by
  suffices hs : ∀ front : List (String × K), (front ++ pairs).Pairwise (fun s t => s.1 < t.1) →
      pairs.foldl (fun l p => accumulate p.1 p.2 l) front =
        front ++ pairs.map fun t => (t.1, 0 + t.2) from hs [] h
  clear h
  induction pairs with
  | nil => exact fun front _ => (List.append_nil front).symm
  | cons t pairs ih =>
    intro front h
    have hlt : ∀ s ∈ front, s.1 < t.1 := fun s hs =>
      (List.pairwise_append.mp h).2.2 s hs t List.mem_cons_self
    -- only the names are compared, so the coefficient may change on the way
    have hnext : ((front ++ [(t.1, 0 + t.2)]) ++ pairs).Pairwise fun s t => s.1 < t.1 := by
      rw [← List.pairwise_map] at h ⊢
      simpa using h
    rw [List.foldl_cons, accumulate_of_forall_lt hlt, ih _ hnext, List.append_assoc,
      List.singleton_append, List.map_cons]

/-- Named finite coefficients and a finite right side make a clause. -/
theorem exists_ofPairs (relation : Relation) {rhs : K} (hnames : ∀ t ∈ pairs, t.1 ≠ "")
    (hpairs : ∀ t ∈ pairs, Scalar.isFinite t.2 = true) (hrhs : Scalar.isFinite rhs = true) :
    ∃ c, ofPairs pairs relation rhs = .ok c ∧
      c.terms = (collect pairs).filter (fun t => !(t.2 == 0)) ∧
      c.relation = relation ∧ c.rhs = rhs := by
  obtain ⟨terms, hterms, hcontent⟩ : ∃ terms : List (VarName × K),
      (pairs.mapM fun t => do
        let name ← VarName.read (.text t.1)
        return (name, ← (Quantity.coefficient name.1).check t.2 (.real t.2))) =
          (.ok terms : Except (Error K) _) ∧
      terms.map (fun p => (p.1.1, p.2)) = pairs := by
    clear hrhs
    induction pairs with
    | nil => exact ⟨[], rfl, rfl⟩
    | cons t pairs ih =>
      obtain ⟨ht, hnames⟩ := List.forall_mem_cons.mp hnames
      obtain ⟨hfinite, hpairs⟩ := List.forall_mem_cons.mp hpairs
      obtain ⟨terms, hterms, hcontent⟩ := ih hnames hpairs
      have hname : VarName.read (.text t.1 : Datum K) = .ok ⟨t.1, ht⟩ := dif_pos ht
      have hcoef : (Quantity.coefficient t.1).check t.2 (.real t.2) = .ok t.2 := if_pos hfinite
      refine ⟨(⟨t.1, ht⟩, t.2) :: terms, ?_, by rw [List.map_cons, hcontent]⟩
      rw [List.mapM_cons, hterms]
      simp only [hname, hcoef, ok_bind]
      rfl
  have hcanonical : (canonical terms relation rhs).terms =
      (collect pairs).filter fun t => !(t.2 == 0) := by
    rw [← hcontent]
    rfl
  refine ⟨canonical terms relation rhs, ?_, hcanonical, rfl, rfl⟩
  have hcheck : Quantity.rightSide.check rhs (.real rhs) = .ok rhs := if_pos hrhs
  rw [ofPairs, hterms, ok_bind, hcheck, ok_bind]
  rfl

end LinearClause

/-! ### Weighted sums -/

/-- The sum of the values of some variables with their coefficients. -/
def weighted (x : String → Rat) (terms : List (String × Rat)) : Rat :=
  (terms.map fun t => t.2 * x t.1).sum

section Weighted

variable {x : String → Rat}

@[simp]
theorem weighted_nil : weighted x [] = 0 := rfl

@[simp]
theorem weighted_cons (t : String × Rat) (terms : List (String × Rat)) :
    weighted x (t :: terms) = t.2 * x t.1 + weighted x terms := by
  rw [weighted, List.map_cons, List.sum_cons, weighted]

theorem weighted_scale (q : Rat) (terms : List (String × Rat)) :
    weighted x (terms.map fun t => (t.1, t.2 * q)) = weighted x terms * q := by
  induction terms with
  | nil => rw [List.map_nil, weighted_nil, zero_mul]
  | cons t terms ih => rw [List.map_cons, weighted_cons, weighted_cons, ih, add_mul, mul_right_comm]

/-- Adding to the coefficient of a name adds to the sum as much. -/
theorem weighted_put (n : String) (q : Rat) (terms : List (String × Rat)) :
    weighted x (Assoc.put n ((Assoc.get? n terms).getD 0 + q) terms) =
      weighted x terms + q * x n := by
  induction terms with
  | nil => simp [Assoc.put]
  | cons t terms ih =>
    rw [Assoc.put, Assoc.get?_cons]
    by_cases ht : (t.1 == n) = true
    · rw [if_pos ht, if_pos ht, weighted_cons, weighted_cons, Option.getD_some, add_mul,
        eq_of_beq ht, add_right_comm]
    · rw [if_neg ht, if_neg ht, weighted_cons, weighted_cons, ih, add_assoc]

theorem weighted_accumulate (n : String) (q : Rat) (terms : List (String × Rat)) :
    weighted x (LinearClause.accumulate n q terms) = weighted x terms + q * x n := by
  induction terms with
  | nil => rw [LinearClause.accumulate, weighted_cons, zero_add, add_comm]
  | cons t terms ih =>
    obtain ⟨m, p⟩ := t
    rw [LinearClause.accumulate]
    split
    · rw [weighted_cons, zero_add, add_comm]
    · split
      · next h =>
        subst h
        rw [weighted_cons, weighted_cons, add_mul, add_right_comm]
      · rw [weighted_cons, weighted_cons, ih, add_assoc]

/-- Collecting coefficients keeps the sum. -/
theorem weighted_collect (pairs : List (String × Rat)) :
    weighted x (LinearClause.collect pairs) = weighted x pairs := by
  suffices h : ∀ l : List (String × Rat),
      weighted x (pairs.foldl (fun l p => LinearClause.accumulate p.1 p.2 l) l) =
        weighted x l + weighted x pairs by
    rw [LinearClause.collect, h, weighted_nil, zero_add]
  induction pairs with
  | nil => exact fun l => (add_zero _).symm
  | cons t pairs ih =>
    intro l
    rw [List.foldl_cons, ih, weighted_accumulate, weighted_cons, add_assoc]

/-- Terms with the coefficient zero do not count. -/
theorem weighted_filter (terms : List (String × Rat)) :
    weighted x (terms.filter fun t => !(t.2 == 0)) = weighted x terms := by
  induction terms with
  | nil => rfl
  | cons t terms ih =>
    by_cases ht : t.2 = 0
    · rw [List.filter_cons_of_neg (by simp [ht]), ih, weighted_cons, ht, zero_mul, zero_add]
    · rw [List.filter_cons_of_pos (by simp [ht]), weighted_cons, ih, weighted_cons]

end Weighted

/-- Named coefficients make a clause with the same sum on the left side, and with no other
variables. -/
theorem LinearClause.exists_ofPairs_weighted {pairs : List (String × Rat)}
    (relation : Relation) (rhs : Rat) (hnames : ∀ t ∈ pairs, t.1 ≠ "") :
    ∃ c, ofPairs pairs relation rhs = .ok c ∧ c.relation = relation ∧ c.rhs = rhs ∧
      (∀ x, weighted x c.terms = weighted x pairs) ∧ c.vars ⊆ pairs.map (·.1) := by
  have hfinite : Scalar.isFinite rhs = true := rfl
  obtain ⟨c, hc, hterms, hrelation, hrhs⟩ :=
    exists_ofPairs relation hnames (fun _ _ => rfl) hfinite
  refine ⟨c, hc, hrelation, hrhs, fun x => ?_, fun s hs => ?_⟩
  · rw [hterms, weighted_filter, weighted_collect]
  · obtain ⟨t, ht, rfl⟩ := List.mem_map.mp hs
    rw [hterms] at ht
    obtain ⟨p, hp, hname⟩ := mem_collect (List.mem_filter.mp ht).1
    exact hname ▸ List.mem_map_of_mem hp

end RuleAudit
