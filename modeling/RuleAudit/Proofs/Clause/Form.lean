import Mathlib.Data.List.Induction
import RuleAudit.Proofs.Clause
import RuleAudit.Proofs.Signs

/-!
# One clause for every linear form

What a clause keeps for a variable is the sum of the coefficients that were given for it, and only
sums that are not zero are kept (`LinearClause.mem_terms_iff`). Over the rationals these sums are
the values of the given linear form at the unit vectors, so the form decides the clause, and the
clause keeps the form.

A clause is made from data or from numbers. It makes no difference which
(`LinearClause.make_eq_ofPairs`), and data that make a clause write numbers
(`LinearClause.exists_ofPairs_of_make`).
-/

namespace RuleAudit

open Outcome

/-! ### Coefficients as data -/

section Data

variable {K : Type} [Scalar K]

theorem Quantity.isFinite_of_check {q : Quantity} {x y : K} {d : Datum K}
    (h : q.check x d = .ok y) : Scalar.isFinite y = true ∧ x = y := by
  rw [check] at h
  split at h
  · next hfinite =>
    obtain rfl := Except.ok.inj h
    exact ⟨hfinite, rfl⟩
  · cases h

theorem Quantity.isFinite_of_read {q : Quantity} {d : Datum K} {x : K} (h : q.read d = .ok x) :
    Scalar.isFinite x = true := by
  unfold read at h
  split at h
  · cases h
  · split at h
    · exact (isFinite_of_check h).1
    all_goals cases h

namespace LinearClause

/-- The data write a name and a finite coefficient. -/
def Writes (d : Datum K × Datum K) (t : String × K) : Prop :=
  d.1 = .text t.1 ∧ (Quantity.coefficient t.1).read d.2 = .ok t.2

variable {data : List (Datum K × Datum K)} {relation bound : Datum K} {rhs : K}
  {pairs : List (String × K)} {c : LinearClause K}

/-- Numbers write themselves. -/
theorem writes_real (h : ∀ t ∈ pairs, Scalar.isFinite t.2 = true) :
    List.Forall₂ Writes (pairs.map fun t => (.text t.1, .real t.2)) pairs :=
  List.forall₂_map_left_iff.mpr (List.forall₂_same.mpr fun t ht => ⟨rfl, if_pos (h t ht)⟩)

/-- Data make the clause that the numbers make, however these are written. -/
theorem make_eq_ofPairs (hpairs : List.Forall₂ Writes data pairs)
    (hrhs : Quantity.rightSide.read bound = .ok rhs) (r : Relation) :
    make data (.text r.symbol) bound = ofPairs pairs r rhs := by
  have hterms : (data.mapM fun d => do
        let name ← VarName.read d.1
        return (name, ← (Quantity.coefficient name.1).read d.2)) =
      (pairs.mapM fun t => do
        let name ← VarName.read (.text t.1)
        return (name, ← (Quantity.coefficient name.1).check t.2 (.real t.2)) :
          Except (Error K) (List (VarName × K))) := by
    induction hpairs with
    | nil => rfl
    | @cons d t data pairs ht _ ih =>
      obtain ⟨name, coef⟩ := d
      obtain ⟨rfl, hcoef⟩ := ht
      have hcheck : (Quantity.coefficient t.1).check t.2 (.real t.2) = .ok t.2 :=
        if_pos (Quantity.isFinite_of_read hcoef)
      rw [List.mapM_cons, List.mapM_cons, ih]
      congr 1
      -- a pair without a name is refused alike
      by_cases hne : t.1 ≠ ""
      · simp only [VarName.read, dif_pos hne, ok_bind, hcoef, hcheck]
      · simp only [VarName.read, dif_neg hne, error_bind]
  have hsymbol : Relation.ofSymbol? r.symbol = some r := by cases r <;> rfl
  have hcheck : Quantity.rightSide.check rhs (.real rhs) = .ok rhs :=
    if_pos (Quantity.isFinite_of_read hrhs)
  refine (congrArg (· >>= _) hterms).trans ?_
  simp only [hsymbol, hrhs, hcheck, ofPairs]
  rfl

/-- Data that make a clause write a relation and numbers. -/
theorem exists_ofPairs_of_make (h : make data relation bound = .ok c) :
    ∃ pairs r rhs, List.Forall₂ Writes data pairs ∧ relation = .text (Relation.symbol r) ∧
      Quantity.rightSide.read bound = .ok rhs ∧ ofPairs pairs r rhs = .ok c := by
  have hgiven := h
  obtain ⟨terms, hterms, h⟩ := bind_eq_ok.mp h
  obtain ⟨r, rfl, rhs, hrhs⟩ : ∃ r, relation = .text (Relation.symbol r) ∧
      ∃ rhs, Quantity.rightSide.read bound = .ok rhs := by
    cases relation with
    | text s =>
      cases hfound : Relation.ofSymbol? s with
      | none =>
        simp only [hfound] at h
        cases h
      | some r =>
        simp only [hfound] at h
        obtain ⟨_, -, h⟩ := bind_eq_ok.mp h
        obtain ⟨rhs, hrhs, -⟩ := bind_eq_ok.mp h
        rw [Relation.ofSymbol?] at hfound
        have hsymbol : r.symbol = s := by simpa using List.find?_some hfound
        exact ⟨r, hsymbol ▸ rfl, rhs, hrhs⟩
    | _ => cases h
  have hpairs : List.Forall₂ Writes data (terms.map fun p => (p.1.1, p.2)) := by
    rw [List.forall₂_map_right_iff]
    refine (forall₂_of_mapM hterms).imp fun d p hp => ?_
    obtain ⟨name, hname, hp⟩ := bind_eq_ok.mp hp
    obtain ⟨a, ha, hp⟩ := bind_eq_ok.mp hp
    obtain rfl := Except.ok.inj hp
    refine ⟨?_, ha⟩
    cases hd : d.1 with
    | text s =>
      rw [hd, VarName.read] at hname
      split at hname
      · obtain rfl := Except.ok.inj hname
        rfl
      · cases hname
    | _ =>
      rw [hd] at hname
      cases hname
  exact ⟨_, r, rhs, hpairs, rfl, hrhs, by rw [← make_eq_ofPairs hpairs hrhs, hgiven]⟩

/-- Only named finite coefficients and a finite right side make a clause. -/
theorem content_of_ofPairs {r : Relation} (h : ofPairs pairs r rhs = .ok c) :
    (∀ t ∈ pairs, t.1 ≠ "" ∧ Scalar.isFinite t.2 = true) ∧ Scalar.isFinite rhs = true ∧
      c.terms = (collect pairs).filter (fun t => !(t.2 == 0)) ∧ c.relation = r ∧ c.rhs = rhs := by
  obtain ⟨terms, hterms, hrest⟩ := bind_eq_ok.mp h
  obtain ⟨checked, hrhs, -⟩ := bind_eq_ok.mp hrest
  obtain ⟨hrhs, rfl⟩ := Quantity.isFinite_of_check hrhs
  have hpairs : ∀ t ∈ pairs, t.1 ≠ "" ∧ Scalar.isFinite t.2 = true := by
    intro t ht
    obtain ⟨p, hp⟩ := exists_of_mapM hterms ht
    obtain ⟨name, hname, hp⟩ := bind_eq_ok.mp hp
    obtain ⟨a, ha, -⟩ := bind_eq_ok.mp hp
    obtain ⟨hfinite, hsame⟩ := Quantity.isFinite_of_check ha
    rw [VarName.read] at hname
    split at hname
    · next hne => exact ⟨hne, hsame ▸ hfinite⟩
    · cases hname
  obtain ⟨d, hd, hcontent⟩ :=
    exists_ofPairs r (fun t ht => (hpairs t ht).1) (fun t ht => (hpairs t ht).2) hrhs
  obtain rfl := Except.ok.inj (h.symm.trans hd)
  exact ⟨hpairs, hrhs, hcontent⟩

end LinearClause

end Data

/-! ### Sums of coefficients -/

namespace LinearClause

section Totals

variable {K : Type} [Scalar K] {pairs : List (String × K)} {n : String}

/-- The sum of the coefficients that are given for a name, from left to right. -/
def total (n : String) (pairs : List (String × K)) : K :=
  (pairs.filter fun t => t.1 == n).foldl (fun a t => a + t.2) 0

theorem total_concat (n : String) (pairs : List (String × K)) (t : String × K) :
    total n (pairs ++ [t]) = if t.1 = n then total n pairs + t.2 else total n pairs := by
  rw [total, List.filter_append, List.foldl_append, ← total]
  by_cases h : t.1 = n
  · rw [if_pos h, List.filter_cons_of_pos (by simpa using h)]
    rfl
  · rw [if_neg h, List.filter_cons_of_neg (by simpa using h)]
    rfl

omit [Scalar K] in
theorem filter_of_not_mem (h : n ∉ pairs.map (·.1)) : (pairs.filter fun t => t.1 == n) = [] :=
  List.filter_eq_nil_iff.mpr fun t ht hname => h (List.mem_map.mpr ⟨t, ht, beq_iff_eq.mp hname⟩)

theorem total_of_not_mem (h : n ∉ pairs.map (·.1)) : total n pairs = 0 := by
  rw [total, filter_of_not_mem h]
  rfl

/-- A coefficient that is given once is only added to zero. -/
theorem total_of_nodup {t : String × K} (h : (pairs.map (·.1)).Nodup) (ht : t ∈ pairs) :
    total t.1 pairs = 0 + t.2 := by
  obtain ⟨front, back, rfl⟩ := List.append_of_mem ht
  rw [List.map_append, List.map_cons, List.nodup_middle, List.nodup_cons, List.mem_append,
    not_or] at h
  obtain ⟨⟨hfront, hback⟩, -⟩ := h
  rw [total, List.filter_append, List.filter_cons_of_pos (by simp),
    filter_of_not_mem hfront, filter_of_not_mem hback]
  rfl

omit [Scalar K] in
theorem nodup_of_ascending {l : List (String × K)} (h : l.Pairwise fun s t => s.1 < t.1) :
    (l.map (·.1)).Nodup :=
  List.pairwise_map.mpr (h.imp Std.ne_of_lt)

/-- Adding a coefficient changes the sum of its name only. -/
theorem get?_accumulate (m : String) (a : K) {l : List (String × K)}
    (h : l.Pairwise fun s t => s.1 < t.1) :
    Assoc.get? n (accumulate m a l) =
      if m = n then some ((Assoc.get? n l).getD 0 + a) else Assoc.get? n l := by
  induction l with
  | nil =>
    by_cases hmn : m = n <;> simp [accumulate, Assoc.get?_cons, hmn]
  | cons t l ih =>
    obtain ⟨k, b⟩ := t
    obtain ⟨hk, hl⟩ := List.pairwise_cons.mp h
    rw [accumulate]
    split
    · next hmk =>
      by_cases hmn : m = n
      · -- the new name comes first, so no entry has it
        have hnone : Assoc.get? n ((k, b) :: l) = none := by
          rw [Assoc.get?_eq_none, ← hmn]
          refine fun hmem => ?_
          rcases List.mem_cons.mp hmem with rfl | hmem
          · exact Std.lt_irrefl hmk
          · obtain ⟨t, ht, rfl⟩ := List.mem_map.mp hmem
            exact Std.lt_irrefl (String.lt_trans hmk (hk t ht))
        rw [Assoc.get?_cons, hnone, if_pos hmn, if_pos (beq_iff_eq.mpr hmn), Option.getD_none]
      · rw [Assoc.get?_cons, if_neg hmn, if_neg (by simpa using hmn)]
    · split
      · next hmk =>
        subst hmk
        by_cases hmn : m = n <;> simp [Assoc.get?_cons, hmn]
      · next hmk =>
        rw [Assoc.get?_cons, Assoc.get?_cons, ih hl]
        by_cases hkn : k = n
        · have hmn : m ≠ n := hkn ▸ hmk
          simp [hkn, hmn]
        · simp [hkn]

/-- Collected coefficients are the sums for all names that occur. -/
theorem get?_collect (n : String) (pairs : List (String × K)) :
    Assoc.get? n (collect pairs) =
      if n ∈ pairs.map (·.1) then some (total n pairs) else none := by
  induction pairs using List.reverseRecOn with
  | nil => rfl
  | append_singleton pairs t ih =>
    have hstep : collect (pairs ++ [t]) = accumulate t.1 t.2 (collect pairs) := by
      rw [collect, List.foldl_append]
      rfl
    have hmem : n ∈ (pairs ++ [t]).map (·.1) ↔ n ∈ pairs.map (·.1) ∨ t.1 = n := by
      rw [List.map_append, List.mem_append, List.map_singleton, List.mem_singleton, eq_comm]
    rw [hstep, get?_accumulate t.1 t.2 (collect_ascending pairs), ih, total_concat,
      if_congr hmem rfl rfl]
    by_cases ht : t.1 = n
    · by_cases hn : n ∈ pairs.map (·.1)
      · simp only [ht, hn, if_true, or_true, Option.getD_some]
      · simp only [ht, hn, if_true, if_false, or_true, Option.getD_none, total_of_not_mem hn]
    · simp only [ht, if_false, or_false]

/-- A clause keeps the sum for every name, unless it is zero. -/
theorem mem_terms_iff {r : Relation} {rhs : K} {c : LinearClause K} {t : String × K}
    (h : ofPairs pairs r rhs = .ok c) :
    t ∈ c.terms ↔ t.1 ∈ pairs.map (·.1) ∧ t.2 = total t.1 pairs ∧ (t.2 == 0) = false := by
  obtain ⟨-, -, hterms, -⟩ := content_of_ofPairs h
  have hcollect : t ∈ collect pairs ↔ t.1 ∈ pairs.map (·.1) ∧ t.2 = total t.1 pairs := by
    have hget := get?_collect t.1 pairs
    constructor
    · intro ht
      rw [Assoc.get?_of_mem (nodup_of_ascending (collect_ascending pairs)) ht] at hget
      split at hget
      · next hmem => exact ⟨hmem, Option.some.inj hget⟩
      · cases hget
    · rintro ⟨hmem, hsum⟩
      rw [if_pos hmem, ← hsum] at hget
      exact Assoc.mem_of_get? hget
  rw [hterms, List.mem_filter, hcollect, Bool.not_eq_true', and_assoc]

/-- A clause of finite numbers is made of its own content. -/
theorem ofPairs_self [Scalar.Lawful K] (c : LinearClause K)
    (hterms : ∀ t ∈ c.terms, Scalar.isFinite t.2 = true) (hrhs : Scalar.isFinite c.rhs = true) :
    ofPairs c.terms c.relation c.rhs = .ok c := by
  obtain ⟨d, hd, hcollect, hrelation, hbound⟩ := exists_ofPairs c.relation c.named hterms hrhs
  have hsame : d.terms = c.terms := by
    have hmap : c.terms.map (fun t => (t.1, 0 + t.2)) = c.terms.map id :=
      List.map_congr_left fun t ht => by rw [Scalar.zero_add (c.nonzero t ht)]; rfl
    rw [hcollect, collect_of_ascending c.ascending, hmap, List.map_id]
    exact List.filter_eq_self.mpr fun t ht => by rw [c.nonzero t ht]; rfl
  rw [hd, Except.ok.injEq, mk.injEq]
  exact ⟨hsame, hrelation, hbound⟩

end Totals

end LinearClause

/-! ### Linear forms -/

namespace LinearClause

section Forms

variable {pairs others : List (String × Rat)} {r : Relation} {rhs : Rat} {c d : LinearClause Rat}

theorem weighted_append (x : String → Rat) (pairs others : List (String × Rat)) :
    weighted x (pairs ++ others) = weighted x pairs + weighted x others := by
  rw [weighted, List.map_append, List.sum_append, ← weighted, ← weighted]

/-- The order of the summands does not matter. -/
theorem weighted_perm (x : String → Rat) (h : pairs.Perm others) :
    weighted x pairs = weighted x others :=
  (h.map _).sum_eq

/-- The sum for a name is the value of the form where that variable is one and all others are
zero. -/
theorem total_eq_weighted (n : String) (pairs : List (String × Rat)) :
    total n pairs = weighted (fun m => if m = n then 1 else 0) pairs := by
  induction pairs using List.reverseRecOn with
  | nil => rfl
  | append_singleton pairs t ih =>
    rw [total_concat, weighted_append, ih, weighted_cons, weighted_nil, add_zero]
    split
    · rw [mul_one]
    · rw [mul_zero, add_zero]

/-- Ascending lists with the same terms are the same. -/
theorem terms_eq_of_mem_iff {s t : List (String × Rat)} (hs : s.Pairwise fun p q => p.1 < q.1)
    (ht : t.Pairwise fun p q => p.1 < q.1) (h : ∀ p, p ∈ s ↔ p ∈ t) : s = t := by
  have hperm : s.Perm t :=
    (List.perm_ext_iff_of_nodup (nodup_of_ascending hs).of_map (nodup_of_ascending ht).of_map).mpr h
  exact hperm.eq_of_pairwise (fun p q _ _ hpq hqp =>
    absurd hqp (Std.not_lt.mpr (Std.le_of_lt hpq))) hs ht

/-- A clause keeps the form that it is made from. -/
theorem weighted_terms (h : ofPairs pairs r rhs = .ok c) (x : String → Rat) :
    weighted x c.terms = weighted x pairs := by
  obtain ⟨-, -, hterms, -⟩ := content_of_ofPairs h
  rw [hterms, weighted_filter, weighted_collect]

/-- The form decides the clause. -/
theorem eq_of_weighted_eq (hc : ofPairs pairs r rhs = .ok c) (hd : ofPairs others r rhs = .ok d)
    (h : ∀ x, weighted x pairs = weighted x others) : c = d := by
  have htotal (n : String) : total n pairs = total n others := by
    rw [total_eq_weighted, total_eq_weighted, h]
  -- a name with a sum that is not zero occurs, so the sums alone decide which terms are there
  have hmem {pairs : List (String × Rat)} {c : LinearClause Rat}
      (hc : ofPairs pairs r rhs = .ok c) (t : String × Rat) :
      t ∈ c.terms ↔ t.2 = total t.1 pairs ∧ (t.2 == 0) = false := by
    refine (mem_terms_iff hc).trans (and_iff_right_of_imp fun ⟨hsum, hzero⟩ => ?_)
    by_contra hnot
    rw [hsum, total_of_not_mem hnot] at hzero
    cases hzero
  have hterms : c.terms = d.terms :=
    terms_eq_of_mem_iff c.ascending d.ascending fun t => by rw [hmem hc, hmem hd, htotal]
  obtain ⟨-, -, -, hcr, hcb⟩ := content_of_ofPairs hc
  obtain ⟨-, -, -, hdr, hdb⟩ := content_of_ofPairs hd
  rw [mk.injEq]
  exact ⟨hterms, hcr.trans hdr.symm, hcb.trans hdb.symm⟩

/-- Lists of the same form make the same clause, if they have names alike. -/
theorem ofPairs_congr (hnames : (∀ t ∈ pairs, t.1 ≠ "") ↔ ∀ t ∈ others, t.1 ≠ "")
    (h : ∀ x, weighted x pairs = weighted x others) :
    ofPairs pairs r rhs = .ok c ↔ ofPairs others r rhs = .ok c := by
  constructor
  · intro hc
    obtain ⟨d, hd, -⟩ := exists_ofPairs_weighted r rhs
      (hnames.mp fun t ht => ((content_of_ofPairs hc).1 t ht).1)
    rw [hd, eq_of_weighted_eq hc hd h]
  · intro hc
    obtain ⟨d, hd, -⟩ := exists_ofPairs_weighted r rhs
      (hnames.mpr fun t ht => ((content_of_ofPairs hc).1 t ht).1)
    rw [hd, eq_of_weighted_eq hd hc h]

/-- With exact numbers, clauses that compare equal are the same. -/
theorem beq_iff : (c == d) = true ↔ c = d := by
  have hparts : (c == d) = (c.terms == d.terms && c.relation == d.relation && c.rhs == d.rhs) := rfl
  rw [hparts, Bool.and_eq_true, Bool.and_eq_true, beq_iff_eq, beq_iff_eq, beq_iff_eq, and_assoc,
    mk.injEq]

/-- **One clause for every linear form.** Coefficients under names, in any order and with
repetitions, make a clause, however they are written. Its names ascend, no coefficient is zero, and
its left side is the given linear form. Two lists make equal clauses exactly when they are the same
form. So the order of a list does not matter, a coefficient may be given in parts, and a clause is
made of its own content. -/
theorem one_clause_for_form :
    (∀ (pairs : List (String × Rat)) (r : Relation) (rhs : Rat), (∀ t ∈ pairs, t.1 ≠ "") →
      ∃ c, ofPairs pairs r rhs = .ok c ∧
        (∀ data bound, List.Forall₂ Writes data pairs → Quantity.rightSide.read bound = .ok rhs →
          make data (.text r.symbol) bound = .ok c) ∧
        c.relation = r ∧ c.rhs = rhs ∧ (c.terms.Pairwise fun s t => s.1 < t.1) ∧
        (∀ t ∈ c.terms, t.2 ≠ 0) ∧ ∀ x, weighted x c.terms = weighted x pairs) ∧
    (∀ (pairs others : List (String × Rat)) (r : Relation) (rhs : Rat) (c d : LinearClause Rat),
      ofPairs pairs r rhs = .ok c → ofPairs others r rhs = .ok d →
        ((c == d) = true ↔ ∀ x, weighted x pairs = weighted x others)) ∧
    (∀ (pairs others : List (String × Rat)) (r : Relation) (rhs : Rat) (c : LinearClause Rat),
      pairs.Perm others → ofPairs pairs r rhs = .ok c → ofPairs others r rhs = .ok c) ∧
    (∀ (front back : List (String × Rat)) (n : String) (a b : Rat) (r : Relation) (rhs : Rat)
      (c : LinearClause Rat), ofPairs (front ++ (n, a) :: (n, b) :: back) r rhs = .ok c ↔
        ofPairs (front ++ (n, a + b) :: back) r rhs = .ok c) ∧
    ∀ c : LinearClause Rat, ofPairs c.terms c.relation c.rhs = .ok c ∧
      make (c.terms.map fun t => (.text t.1, .real t.2)) (.text c.relation.symbol)
        (.real c.rhs) = .ok c := by
  refine ⟨fun pairs r rhs hnames => ?_,
    fun pairs others r rhs c d hc hd => ⟨fun h x => ?_, fun h => ?_⟩,
    fun pairs others r rhs c hperm hc => ?_, fun front back n a b r rhs c => ?_,
    fun c => ?_⟩
  · obtain ⟨c, hc, hrelation, hrhs, hsum, -⟩ := exists_ofPairs_weighted r rhs hnames
    refine ⟨c, hc, fun data bound hdata hbound => ?_, hrelation, hrhs, c.ascending,
      fun t ht => ne_of_beq_false (c.nonzero t ht), hsum⟩
    rw [make_eq_ofPairs hdata hbound, hc]
  · rw [← weighted_terms hc, ← weighted_terms hd, beq_iff.mp h]
  · exact beq_iff.mpr (eq_of_weighted_eq hc hd h)
  · exact (ofPairs_congr (by simp only [hperm.mem_iff]) fun x => weighted_perm x hperm).mp hc
  · refine ofPairs_congr ?_ fun x => ?_
    · simp only [List.forall_mem_append, List.forall_mem_cons, and_self_left]
    · rw [weighted_append, weighted_append, weighted_cons, weighted_cons, weighted_cons, add_mul,
        add_assoc]
  · have hself : ofPairs c.terms c.relation c.rhs = .ok c := ofPairs_self c (fun _ _ => rfl) rfl
    exact ⟨hself, by rw [make_eq_ofPairs (writes_real fun _ _ => rfl) rfl, hself]⟩

/-- Two variables, one of which cancels; the other one has a coefficient in two parts. -/
theorem one_clause_for_form_cancelled :
    let pairs : List (String × Rat) := [("y", 2), ("x", 1), ("y", -2), ("x", 1 / 2)]
    let data : List (Datum Rat × Datum Rat) :=
      [(.text "y", .int 2), (.text "x", .real 1), (.text "y", .int (-2)), (.text "x", .text "0.5")]
    (∀ t ∈ pairs, t.1 ≠ "") ∧ List.Forall₂ Writes data pairs ∧
      Quantity.rightSide.read (.int 3) = .ok (3 : Rat) ∧ pairs.Perm pairs.reverse ∧
      ∃ c d, make data (.text "<=") (.int 3) = .ok c ∧ c.terms = [("x", 3 / 2)] ∧
        ofPairs pairs.reverse .le 3 = .ok c ∧ ofPairs c.terms c.relation c.rhs = .ok c ∧
        ofPairs [("x", 1), ("x", 1 / 2)] .le 3 = .ok d ∧ (c == d) = true := by
  intro pairs data
  have hnames : ∀ t ∈ pairs, t.1 ≠ "" := by decide
  have hhalf : (Quantity.coefficient "x").read (.text "0.5") = .ok (1 / 2 : Rat) :=
    eq_ok_of_toOption (by decide +kernel)
  have hdata : List.Forall₂ Writes data pairs :=
    .cons ⟨rfl, rfl⟩ (.cons ⟨rfl, rfl⟩ (.cons ⟨rfl, rfl⟩ (.cons ⟨rfl, hhalf⟩ .nil)))
  have hbound : Quantity.rightSide.read (.int 3) = .ok (3 : Rat) := rfl
  have hperm : pairs.Perm pairs.reverse := (List.reverse_perm pairs).symm
  obtain ⟨hmake, heq, hpermute, hsplit, hself⟩ := one_clause_for_form
  obtain ⟨c, hc, hwritten, -⟩ := hmake pairs .le 3 hnames
  obtain ⟨d, hd, -⟩ := hmake [("x", 1 + 1 / 2)] .le 3 (by decide)
  have hform (x : String → Rat) : weighted x pairs = weighted x [("x", 1 + 1 / 2)] := by
    simp only [pairs, weighted_cons, weighted_nil]
    linarith
  have hterms : (ofPairs pairs .le 3).toOption.any (fun c => c.terms == [("x", 3 / 2)]) = true := by
    decide +kernel
  rw [hc] at hterms
  exact ⟨hnames, hdata, hbound, hperm, c, d, hwritten data _ hdata hbound,
    LawfulBEq.eq_of_beq hterms, hpermute _ _ _ _ c hperm hc, (hself c).1,
    (hsplit [] [] "x" 1 (1 / 2) _ _ d).mpr hd, (heq _ _ _ _ c d hc hd).mpr hform⟩

end Forms

end LinearClause

end RuleAudit
