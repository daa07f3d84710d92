import RuleAudit.Proofs.Binary64
import RuleAudit.Proofs.Clause
import RuleAudit.Proofs.Signs
import RuleAudit.Tree.Reader
import RuleAudit.Tree.Writer

/-!
# Writing a tree and reading it back

A linear clause is written as a weighted sum and read back with everything moved to the left side,
so its right side is negated twice on the way and its coefficients are multiplied by one and added
to zero. With numbers that obey `Scalar.Lawful` nothing of that changes a clause, except that a zero
on the right side may change its sign. So what is read is equal to what was written
(`Tree.exists_same_of_ofExpr`), and the same where zero has no sign.
-/

namespace RuleAudit

open Outcome

variable {K : Type} [Scalar K]

/-! ### Expressions that can be written -/

/-- A clause of finite numbers, or of labels. An infinity can only come from a sum of coefficients
that overflows, and is written as a number that cannot be read. -/
def Clause.IsValid : Clause K → Prop
  | linear c => (∀ t ∈ c.terms, Scalar.isFinite t.2 = true) ∧ Scalar.isFinite c.rhs = true
  | membership _ => True
  | foreign _ => False

/-- An expression of valid clauses, truth values and connectives. -/
inductive Expr.IsWritable : Expr K → Prop
  | atom {c : Clause K} (hc : c.IsValid) : IsWritable (.atom c)
  | const (b : Bool) : IsWritable (.const (.bool b))
  | and {args : List (Expr K)} (hargs : ∀ e ∈ args, IsWritable e) : IsWritable (.and args)
  | or {args : List (Expr K)} (hargs : ∀ e ∈ args, IsWritable e) : IsWritable (.or args)
  | not {e : Expr K} (he : IsWritable e) : IsWritable (.not e)
  | ifThen {a c : Expr K} (ha : IsWritable a) (hc : IsWritable c) : IsWritable (.ifThen a c)

namespace Tree

variable {rule : Datum K}

/-! ### Operators -/

/-- A sum is not written like a label. -/
theorem label?_ofTerms (terms : List (String × K)) : label? (ofTerms terms) = none := by
  unfold ofTerms ofTerm
  split
  · rfl
  · split <;> rfl
  · rfl

/-- An operator of comparison is read with its operands. -/
theorem expr_comparison (r : Relation) (lhs rhs : Datum K) :
    expr rule (.record [(r.symbol, .list [lhs, rhs])]) = comparison rule r.symbol [lhs, rhs] := by
  cases r <;> rfl

theorem comparison_symbol (r : Relation) {lhs rhs : Datum K} (hl : label? lhs = none)
    (hr : label? rhs = none) :
    comparison rule r.symbol [lhs, rhs] = linearComparison rule r lhs rhs := by
  cases r with
  | eq =>
    rw [comparison, hl, hr]
    exact bind_pure _
  | _ => rfl

/-- A membership clause is read from its content. -/
theorem membership_self (op : String) (c : MembershipClause)
    (hop : c.negated = decide (op = "not in")) :
    membership rule op [.text c.subject, .list (c.labels.map .text)] =
      .ok (.atom (.membership c)) := by
  have hlabels : (c.labels.map (Datum.text : String → Datum K)).map Datum.label = c.labels := by
    rw [List.map_map]
    exact List.map_id _
  have hname : variableName rule (.text c.subject) = .ok ⟨c.subject, c.named⟩ := dif_pos c.named
  rw [membership, hname, ok_bind, hlabels, ← hop]
  exact congrArg (fun m => Except.ok (Expr.atom (.membership m))) c.ofLabels_self

/-- Expressions that differ in the signs of zeros are written and read one by one. -/
theorem exists_ofExprs {args : List (Expr K)}
    (h : ∀ e ∈ args, ∃ tree f, ofExpr e = .ok tree ∧ expr rule tree = .ok f ∧
      f.dropSigns = e.dropSigns) :
    ∃ trees fs, ofExprs args = .ok trees ∧ exprs rule trees = .ok fs ∧
      fs.map Expr.dropSigns = args.map Expr.dropSigns := by
  induction args with
  | nil => exact ⟨[], [], rfl, rfl, rfl⟩
  | cons e args ih =>
    obtain ⟨⟨tree, f, hwrite, hread, hdrop⟩, hargs⟩ := List.forall_mem_cons.mp h
    obtain ⟨trees, fs, hwrites, hreads, hdrops⟩ := ih hargs
    refine ⟨tree :: trees, f :: fs, ?_, ?_, by rw [List.map_cons, hdrop, hdrops, List.map_cons]⟩
    · rw [ofExprs, hwrite, ok_bind, hwrites]
      rfl
    · rw [exprs, hread, ok_bind, hreads]
      rfl

variable (rule) [Scalar.Lawful K]

/-! ### Sums -/

section Sums

variable {t : String × K} {terms : List (String × K)}

/-- One summand is read as its coefficient, and a zero. -/
theorem exists_linear_ofTerm (hname : t.1 ≠ "") (hzero : (t.2 == 0) = false)
    (hfinite : Scalar.isFinite t.2 = true) :
    ∃ z, (z == 0) = true ∧ linear rule (ofTerm t) = .ok ⟨[t], z⟩ := by
  obtain ⟨n, a⟩ := t
  have hvariable : linear rule (.text n) = .ok ⟨[(n, 1)], 0⟩ := by rw [linear, if_neg hname]
  rw [ofTerm]
  split
  · next hone =>
    have ha : a = 1 := Scalar.Lawful.eq_of_beq hone Scalar.Lawful.one_ne_zero
    exact ⟨0, Scalar.zero_beq_zero, by rw [hvariable, ha]⟩
  · -- the product starts from one, and each factor is scaled by what stands before it
    have hnumber : linear rule (.real a) = .ok ⟨[], a⟩ := by
      have hread : number rule (.real a) = .ok a := if_pos hfinite
      rw [linear, hread]
      · rfl
      all_goals simp
    have hfactor : Affine.times? ⟨[], 1⟩ ⟨[], a⟩ = some (⟨[], a⟩ : Affine K) :=
      congrArg (fun q => some (⟨[], q⟩ : Affine K)) (Scalar.Lawful.mul_one hfinite)
    have hproduct : Affine.times? ⟨[], a⟩ ⟨[(n, 1)], 0⟩ = some (⟨[(n, a)], 0 * a⟩ : Affine K) :=
      congrArg (fun q => some (⟨[(n, q)], 0 * a⟩ : Affine K)) (Scalar.Lawful.one_mul hfinite)
    refine ⟨0 * a, Scalar.Lawful.zero_mul hfinite, ?_⟩
    rw [Datum.record, List.map_cons, List.map_nil, linear, linearNode, linearProduct, hnumber,
      ok_bind]
    simp only [hfactor]
    rw [linearProduct, hvariable, ok_bind]
    simp only [hproduct]
    rfl

/-- Summands with new names are put at the end, and zeros add up to a zero. -/
theorem exists_linearSum_ofTerm (out : Affine K) (hout : (out.const == 0) = true)
    (hnodup : ((out.coefs ++ terms).map (·.1)).Nodup) (hnames : ∀ t ∈ terms, t.1 ≠ "")
    (hzero : ∀ t ∈ terms, (t.2 == 0) = false)
    (hfinite : ∀ t ∈ terms, Scalar.isFinite t.2 = true) :
    ∃ z, (z == 0) = true ∧
      linearSum rule out (terms.map ofTerm) = .ok ⟨out.coefs ++ terms, z⟩ := by
  induction terms generalizing out with
  | nil => exact ⟨out.const, hout, by rw [List.append_nil]; rfl⟩
  | cons t terms ih =>
    obtain ⟨hname, hnames⟩ := List.forall_mem_cons.mp hnames
    obtain ⟨hnonzero, hzero⟩ := List.forall_mem_cons.mp hzero
    obtain ⟨hfin, hfinite⟩ := List.forall_mem_cons.mp hfinite
    obtain ⟨z, hz, hread⟩ := exists_linear_ofTerm rule hname hnonzero hfin
    have hnew : t.1 ∉ out.coefs.map (·.1) := by
      rw [List.map_append, List.map_cons] at hnodup
      exact fun h => (List.nodup_append.mp hnodup).2.2 t.1 h t.1 List.mem_cons_self rfl
    have hadd : out.add ⟨[t], z⟩ = ⟨out.coefs ++ [t], out.const + z⟩ := by
      obtain ⟨n, a⟩ := t
      rw [Affine.add, List.foldl_cons, List.foldl_nil]
      dsimp only at hnew ⊢
      rw [Assoc.put_of_not_mem hnew, Assoc.get?_eq_none.mpr hnew, Option.getD_none,
        Scalar.zero_add hnonzero]
    rw [List.append_cons] at hnodup
    obtain ⟨w, hw, hrest⟩ := ih ⟨out.coefs ++ [t], out.const + z⟩
      (Scalar.Lawful.add_zeros hout hz) hnodup hnames hzero hfinite
    refine ⟨w, hw, ?_⟩
    rw [List.map_cons, linearSum, hread, ok_bind, hadd, hrest, List.append_assoc,
      List.singleton_append]

/-- The left side of a clause is read as its terms, and a zero. -/
theorem exists_linear_ofTerms (c : LinearClause K)
    (hfinite : ∀ t ∈ c.terms, Scalar.isFinite t.2 = true) :
    ∃ z, (z == 0) = true ∧ linear rule (ofTerms c.terms) = .ok ⟨c.terms, z⟩ := by
  have hnodup : (c.terms.map (·.1)).Nodup := by
    rw [List.nodup_iff_pairwise_ne, List.pairwise_map]
    exact c.ascending.imp fun hlt => Std.ne_of_lt hlt
  unfold ofTerms
  split
  · next hterms =>
    refine ⟨0, Scalar.zero_beq_zero, ?_⟩
    have hzero : Scalar.ofInt? 0 = some (0 : K) := if_pos Scalar.Lawful.isFinite_zero
    have hread : number rule (.int 0) = .ok (0 : K) := by rw [number, hzero]
    rw [hterms, linear, hread]
    · rfl
    all_goals simp
  · next t hterms =>
    have ht : t ∈ c.terms := by rw [hterms]; exact List.mem_cons_self
    rw [hterms]
    exact exists_linear_ofTerm rule (c.named t ht) (c.nonzero t ht) (hfinite t ht)
  · obtain ⟨z, hz, hread⟩ := exists_linearSum_ofTerm rule ⟨[], 0⟩
      Scalar.zero_beq_zero hnodup c.named c.nonzero hfinite
    refine ⟨z, hz, ?_⟩
    rw [Datum.record, List.map_cons, List.map_nil, linear, linearNode]
    exact hread

end Sums

/-! ### Clauses -/

/-- Negating the right side twice changes no more than the sign of a zero. -/
theorem dropSign_rightSide {z b : K} (hz : (z == 0) = true) (hb : Scalar.isFinite b = true) :
    Scalar.isFinite (-(z + b * (-1))) = true ∧
      Scalar.dropSign (-(z + b * (-1))) = Scalar.dropSign b := by
  rw [Scalar.Lawful.mul_neg_one hb]
  by_cases hzero : (b == 0) = true
  · have hneg : (-b == 0) = true := (Scalar.Lawful.neg_beq_zero hb).trans hzero
    have hsum : (z + -b == 0) = true := Scalar.Lawful.add_zeros hz hneg
    have hfinite := Scalar.Lawful.isFinite_of_beq_zero hsum
    have hresult : (-(z + -b) == 0) = true := (Scalar.Lawful.neg_beq_zero hfinite).trans hsum
    exact ⟨Scalar.Lawful.isFinite_neg hfinite, by
      rw [Scalar.dropSign, Scalar.dropSign, if_pos hresult, if_pos hzero]⟩
  · rw [Bool.not_eq_true] at hzero
    have hneg : (-b == 0) = false := (Scalar.Lawful.neg_beq_zero hb).trans hzero
    rw [Scalar.Lawful.add_of_zero hz hneg, Scalar.Lawful.neg_neg hb]
    exact ⟨hb, rfl⟩

/-- A clause is read as it was written, but for the sign of a zero. -/
theorem exists_linearComparison_ofTerms (c : LinearClause K)
    (hterms : ∀ t ∈ c.terms, Scalar.isFinite t.2 = true) (hrhs : Scalar.isFinite c.rhs = true) :
    ∃ d : LinearClause K,
      linearComparison rule c.relation (ofTerms c.terms) (.real c.rhs) = .ok (.atom (.linear d)) ∧
      d.dropSign = c.dropSign := by
  obtain ⟨z, hz, hleft⟩ := exists_linear_ofTerms rule c hterms
  have hright : linear rule (.real c.rhs) = .ok ⟨[], c.rhs⟩ := by
    have hread : number rule (.real c.rhs) = .ok c.rhs := if_pos hrhs
    rw [linear, hread]
    · rfl
    all_goals simp
  obtain ⟨hfinite, hdrop⟩ := dropSign_rightSide hz hrhs
  obtain ⟨d, hd, hdterms, hdrelation, hdrhs⟩ :=
    LinearClause.exists_ofPairs c.relation c.named hterms hfinite
  have hsame : d.terms = c.terms := by
    rw [hdterms, LinearClause.collect_of_ascending c.ascending]
    have hmap : c.terms.map (fun t => (t.1, 0 + t.2)) = c.terms.map id :=
      List.map_congr_left fun t ht => by rw [Scalar.zero_add (c.nonzero t ht)]; rfl
    rw [hmap, List.map_id]
    exact List.filter_eq_self.mpr fun t ht => by rw [c.nonzero t ht]; rfl
  refine ⟨d, ?_, ?_⟩
  · rw [linearComparison, hleft, ok_bind, hright, ok_bind]
    exact bind_eq_ok.mpr ⟨d, hd, rfl⟩
  · rw [LinearClause.dropSign, LinearClause.dropSign, LinearClause.mk.injEq, hdrhs]
    exact ⟨hsame, hdrelation, hdrop⟩

/-- A valid clause is written as a tree that is read as the clause, but for the sign of a zero. -/
theorem exists_ofClause {c : Clause K} (hc : c.IsValid) :
    ∃ tree d, ofClause c = .ok tree ∧ expr rule tree = .ok (.atom d) ∧
      d.dropSign = c.dropSign := by
  cases c with
  | linear c =>
    obtain ⟨d, hd, hdrop⟩ := exists_linearComparison_ofTerms rule c hc.1 hc.2
    refine ⟨_, .linear d, rfl, ?_, congrArg Clause.linear hdrop⟩
    rw [expr_comparison, comparison_symbol _ (label?_ofTerms _) rfl, hd]
  | membership c =>
    refine ⟨_, .membership c, rfl, ?_, rfl⟩
    cases hnegated : c.negated with
    | false => exact membership_self "in" c hnegated
    | true => exact membership_self "not in" c hnegated
  | foreign v => cases hc

/-! ### Expressions -/

/-- What is written is read as before, but for the signs of zeros. -/
theorem exists_dropSigns_of_ofExpr {e : Expr K} (he : e.IsWritable) :
    ∃ tree f, ofExpr e = .ok tree ∧ expr rule tree = .ok f ∧ f.dropSigns = e.dropSigns := by
  induction he with
  | atom hc =>
    obtain ⟨tree, d, hwrite, hread, hdrop⟩ := exists_ofClause rule hc
    exact ⟨tree, .atom d, hwrite, hread, congrArg Expr.atom hdrop⟩
  | const b => exact ⟨.bool b, .const (.bool b), by cases b <;> rfl, rfl, rfl⟩
  | and hargs ih =>
    obtain ⟨trees, fs, hwrite, hread, hdrop⟩ := exists_ofExprs ih
    refine ⟨.record [("and", .list trees)], .and fs, ?_, ?_, ?_⟩
    · rw [ofExpr, hwrite]
      rfl
    · exact bind_eq_ok.mpr ⟨fs, hread, rfl⟩
    · simp only [Expr.dropSigns, Expr.mapClauses, Expr.mapClausesEach_eq] at hdrop ⊢
      rw [hdrop]
  | or hargs ih =>
    obtain ⟨trees, fs, hwrite, hread, hdrop⟩ := exists_ofExprs ih
    refine ⟨.record [("or", .list trees)], .or fs, ?_, ?_, ?_⟩
    · rw [ofExpr, hwrite]
      rfl
    · exact bind_eq_ok.mpr ⟨fs, hread, rfl⟩
    · simp only [Expr.dropSigns, Expr.mapClauses, Expr.mapClausesEach_eq] at hdrop ⊢
      rw [hdrop]
  | not he ih =>
    obtain ⟨tree, f, hwrite, hread, hdrop⟩ := ih
    refine ⟨.record [("not", tree)], .not f, ?_, ?_, congrArg Expr.not hdrop⟩
    · rw [ofExpr, hwrite]
      rfl
    · exact bind_eq_ok.mpr ⟨f, hread, rfl⟩
  | ifThen ha hc iha ihc =>
    obtain ⟨ta, fa, hwriteA, hreadA, hdropA⟩ := iha
    obtain ⟨tc, fc, hwriteC, hreadC, hdropC⟩ := ihc
    refine ⟨.record [("if", ta), ("then", tc)], .ifThen fa fc, ?_, ?_,
      congrArg₂ Expr.ifThen hdropA hdropC⟩
    · rw [ofExpr, hwriteA, ok_bind, hwriteC]
      rfl
    · exact bind_eq_ok.mpr ⟨fa, hreadA, bind_eq_ok.mpr ⟨fc, hreadC, rfl⟩⟩

end Tree

/-! ### Equality -/

section Equality

theorem beq_self_of_forall {α : Type} [BEq α] {l : List α} (h : ∀ a ∈ l, (a == a) = true) :
    (l == l) = true := by
  induction l with
  | nil => rfl
  | cons a l ih =>
    obtain ⟨ha, hl⟩ := List.forall_mem_cons.mp h
    rw [List.cons_beq_cons, ha, ih hl]
    rfl

/-- Arguments are equal one by one. -/
theorem Expr.sameArgs_of_dropSigns {es fs : List (Expr K)}
    (hsame : ∀ e ∈ es, ∀ f : Expr K, f.dropSigns = e.dropSigns → f.same e = true)
    (h : fs.map dropSigns = es.map dropSigns) : sameArgs fs es = true := by
  induction es generalizing fs with
  | nil =>
    obtain rfl := List.map_eq_nil_iff.mp h
    rfl
  | cons e es ih =>
    obtain ⟨he, hes⟩ := List.forall_mem_cons.mp hsame
    cases fs with
    | nil => cases h
    | cons f fs =>
      obtain ⟨hf, hfs⟩ := List.cons.inj h
      rw [sameArgs, he f hf, ih hes hfs]
      rfl

variable [Scalar.Lawful K]

theorem LinearClause.beq_of_dropSign {c d : LinearClause K}
    (hterms : ∀ t ∈ c.terms, Scalar.isFinite t.2 = true) (hrhs : Scalar.isFinite c.rhs = true)
    (h : d.dropSign = c.dropSign) : (d == c) = true := by
  rw [dropSign, dropSign, LinearClause.mk.injEq] at h
  obtain ⟨hsame, hrelation, hdrop⟩ := h
  have hbeq : (d == c) = (d.terms == c.terms && d.relation == c.relation && d.rhs == c.rhs) := rfl
  have hself : (c.terms == c.terms) = true := beq_self_of_forall fun t ht => by
    have hpair : (t == t) = (t.1 == t.1 && t.2 == t.2) := rfl
    rw [hpair, beq_self_eq_true, Scalar.Lawful.beq_self (hterms t ht)]
    rfl
  rw [hbeq, hsame, hrelation, hself, Scalar.beq_of_dropSign hrhs hdrop]
  simp

theorem Clause.beq_of_dropSign {c d : Clause K} (hc : c.IsValid) (h : d.dropSign = c.dropSign) :
    (d == c) = true := by
  cases c with
  | linear c =>
    cases d with
    | linear d => exact LinearClause.beq_of_dropSign hc.1 hc.2 (Clause.linear.inj h)
    | _ => cases h
  | membership c =>
    cases d with
    | membership d =>
      obtain rfl := Clause.membership.inj h
      exact beq_self_eq_true (α := MembershipClause) _
    | _ => cases h
  | foreign v => cases hc

/-- Expressions that differ in the signs of zeros are equal. -/
theorem Expr.same_of_dropSigns {e f : Expr K} (he : e.IsWritable)
    (h : f.dropSigns = e.dropSigns) : f.same e = true := by
  induction he generalizing f with
  | atom hc =>
    cases f with
    | atom d => exact Clause.beq_of_dropSign hc (Expr.atom.inj h)
    | _ => cases h
  | const b =>
    cases f with
    | const w =>
      obtain rfl := Expr.const.inj h
      cases b <;> rfl
    | _ => cases h
  | and hargs ih =>
    cases f with
    | and fs =>
      rw [Expr.dropSigns, Expr.mapClauses, Expr.dropSigns, Expr.mapClauses, Expr.mapClausesEach_eq,
        Expr.mapClausesEach_eq] at h
      exact Expr.sameArgs_of_dropSigns ih (Expr.and.inj h)
    | _ => cases h
  | or hargs ih =>
    cases f with
    | or fs =>
      rw [Expr.dropSigns, Expr.mapClauses, Expr.dropSigns, Expr.mapClauses, Expr.mapClausesEach_eq,
        Expr.mapClausesEach_eq] at h
      exact Expr.sameArgs_of_dropSigns ih (Expr.or.inj h)
    | _ => cases h
  | not he ih =>
    cases f with
    | not f => exact ih (Expr.not.inj h)
    | _ => cases h
  | ifThen ha hc iha ihc =>
    cases f with
    | ifThen f g =>
      obtain ⟨hf, hg⟩ := Expr.ifThen.inj h
      rw [Expr.same, iha hf, ihc hg]
      rfl
    | _ => cases h

end Equality

/-- **Writing and reading back gives an equal expression.** An expression of valid clauses, truth
values and connectives has a tree, and whatever rule it is read for, the tree is read as an
expression equal to it. -/
theorem Tree.exists_same_of_ofExpr [Scalar.Lawful K] (e : Expr K) (rule : Datum K)
    (he : e.IsWritable) :
    ∃ tree f, Tree.ofExpr e = .ok tree ∧ Tree.expr rule tree = .ok f ∧ (f == e) = true := by
  obtain ⟨tree, f, hwrite, hread, hdrop⟩ := exists_dropSigns_of_ofExpr rule he
  exact ⟨tree, f, hwrite, hread, Expr.same_of_dropSigns he hdrop⟩

/-- The clause `x - 2.5 * y < 0` over doubles. -/
def offsetClause : LinearClause Float where
  terms := [("x", Scalar.ofRat 1), ("y", Scalar.ofRat (-5 / 2))]
  relation := .lt
  rhs := Scalar.ofRat 0
  ascending := by decide
  nonzero := by decide +kernel
  named := by decide

/-- An implication whose antecedent is the empty conjunction. -/
def nestedExpr : Expr Float :=
  .ifThen (.and []) (.not (.or [.atom (.linear offsetClause),
    .atom (.membership ⟨"colour", ["blue", "red"], true, by decide, by decide⟩),
    .const (.bool false)]))

/-- The zero on the right side is read back as a negative zero, which is equal to it. -/
theorem Tree.exists_same_of_ofExpr_nested : nestedExpr.IsWritable ∧
    ∃ tree f, Tree.ofExpr nestedExpr = .ok tree ∧ Tree.expr (.text "offset") tree = .ok f ∧
      (f == nestedExpr) = true := by
  have hclause : (Clause.linear offsetClause).IsValid := by
    refine ⟨?_, ?_⟩ <;> decide +kernel
  have hwritable : nestedExpr.IsWritable := by
    refine .ifThen (.and (List.forall_mem_nil _)) (.not (.or ?_))
    exact List.forall_mem_cons.mpr ⟨.atom hclause, List.forall_mem_cons.mpr
      ⟨.atom trivial, List.forall_mem_cons.mpr ⟨.const false, List.forall_mem_nil _⟩⟩⟩
  exact ⟨hwritable, Tree.exists_same_of_ofExpr nestedExpr (.text "offset") hwritable⟩

end RuleAudit
