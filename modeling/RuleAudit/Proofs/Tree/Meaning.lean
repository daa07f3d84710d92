import RuleAudit.Proofs.Tree.Linear
import RuleAudit.Proofs.Tree.Reader
import RuleAudit.Proofs.Valuation

/-!
# The meaning of rule trees

A rule tree has a truth value at every valuation, computed on the tree as it is written: both sides
of a comparison by their values, memberships and equalities with a label by the text of the label,
and the connectives on the truth values of their operands. The reader accepts exactly the trees of
the grammar `Tree.IsExpr`, and the expression that it makes is true where the tree is:
`Tree.reads_iff_and_holds`.
-/

namespace RuleAudit

open Outcome

namespace Tree

/-! ### Variables in use -/

section Uses

variable {K : Type}

/-- The name of a variable, bare or under `var`. -/
def subject : Datum K → String
  | .text s => s
  | .mapping [(.text "var", .text s)] => s
  | _ => ""

/-- The variables of a comparison: one that is compared with a label is categorical. -/
def comparedUses : List (Datum K) → List (String × VarKind)
  | [lhs, rhs] => match label? lhs, label? rhs with
    | some _, _ => [(subject rhs, .categorical)]
    | none, some _ => [(subject lhs, .categorical)]
    | none, none => (names lhs ++ names rhs).map (·, .numeric)
  | _ => []

/-- The variable of a membership. -/
def memberUses : List (Datum K) → List (String × VarKind)
  | [name, .list _] => [(subject name, .categorical)]
  | _ => []

mutual
/-- The variables of a tree, with the kinds that it uses them with. -/
def uses : Datum K → List (String × VarKind)
  | .mapping entries => nodeUses entries
  | _ => []

/-- The variables under an operator. -/
def nodeUses : List (Datum K × Datum K) → List (String × VarKind)
  | [(.text "if", a), (.text "then", c)] => uses a ++ uses c
  | [(.text "then", c), (.text "if", a)] => uses a ++ uses c
  | [(.text op, .list args)] =>
    if op ∈ comparisonSigns then comparedUses args
    else if op = "in" ∨ op = "not in" then memberUses args
    else usesEach args
  | [(.text _, d)] => uses d
  | _ => []

/-- The variables of several trees. -/
def usesEach : List (Datum K) → List (String × VarKind)
  | [] => []
  | d :: rest => uses d ++ usesEach rest
end

@[simp]
theorem usesEach_eq (ds : List (Datum K)) : usesEach ds = ds.flatMap uses := by
  induction ds with
  | nil => rfl
  | cons d ds ih => rw [usesEach, ih, List.flatMap_cons]

end Uses

/-! ### Truth values -/

section Truth

variable (v : Valuation)

/-- The variable has one of the labels. -/
def hasLabel (name : Datum Rat) (labels : List (Datum Rat)) : Bool :=
  match v.label (subject name) with
  | none => false
  | some l => labels.any fun d => d.label == l

/-- Both sides are equal: a variable and a label, or two linear expressions. -/
def areEqual (lhs rhs : Datum Rat) : Bool :=
  match label? lhs, label? rhs with
  | some label, _ => hasLabel v rhs [label]
  | none, some label => hasLabel v lhs [label]
  | none, none => decide (value v.number lhs = value v.number rhs)

/-- The truth value of a comparison. -/
def comparedTruth (op : String) : List (Datum Rat) → Bool
  | [lhs, rhs] => match op with
    | "<=" => decide (value v.number lhs ≤ value v.number rhs)
    | "<" => decide (value v.number lhs < value v.number rhs)
    | "==" => areEqual v lhs rhs
    | ">=" => decide (value v.number lhs ≥ value v.number rhs)
    | ">" => decide (value v.number lhs > value v.number rhs)
    | "!=" => !areEqual v lhs rhs
    | _ => false
  | _ => false

/-- The truth value of a membership. -/
def memberTruth (op : String) : List (Datum Rat) → Bool
  | [name, .list labels] => if op = "in" then hasLabel v name labels else !hasLabel v name labels
  | _ => false

mutual
/-- The truth value of a tree. -/
def truth : Datum Rat → Bool
  | .bool b => b
  | .mapping entries => nodeTruth entries
  | _ => false

/-- The truth value under an operator: `if` with `then` is an implication. -/
def nodeTruth : List (Datum Rat × Datum Rat) → Bool
  | [(.text "if", a), (.text "then", c)] => !truth a || truth c
  | [(.text "then", c), (.text "if", a)] => !truth a || truth c
  | [(.text op, .list args)] =>
    if op ∈ comparisonSigns then comparedTruth v op args
    else if op = "in" ∨ op = "not in" then memberTruth v op args
    else if op = "and" ∨ op = "&&" then (truthEach args).all id
    else (truthEach args).any id
  | [(.text _, d)] => !truth d
  | _ => false

/-- The truth values of several trees. -/
def truthEach : List (Datum Rat) → List Bool
  | [] => []
  | d :: rest => truth d :: truthEach rest
end

@[simp]
theorem truthEach_eq (ds : List (Datum Rat)) : truthEach v ds = ds.map (truth v) := by
  induction ds with
  | nil => rfl
  | cons d ds ih => rw [truthEach, ih, List.map_cons]

end Truth

/-! ### The grammar -/

/-- A variable, bare or under `var`. -/
inductive IsVariable : Datum Rat → Prop
  | bare {s : String} (hs : s ≠ "") : IsVariable (.text s)
  | var {s : String} (hs : s ≠ "") : IsVariable (.mapping [(.text "var", .text s)])

/-- The grammar of rule trees. -/
inductive IsExpr : Datum Rat → Prop
  | bool (b : Bool) : IsExpr (.bool b)
  | and {op : String} {args : List (Datum Rat)} (hop : op = "and" ∨ op = "&&")
    (hargs : ∀ d ∈ args, IsExpr d) : IsExpr (operation op args)
  | or {op : String} {args : List (Datum Rat)} (hop : op = "or" ∨ op = "||")
    (hargs : ∀ d ∈ args, IsExpr d) : IsExpr (operation op args)
  | not {op : String} {d : Datum Rat} (hop : op = "not" ∨ op = "!") (hd : IsExpr d) :
    IsExpr (.mapping [(.text op, d)])
  | ifThen {a c : Datum Rat} (ha : IsExpr a) (hc : IsExpr c) :
    IsExpr (.mapping [(.text "if", a), (.text "then", c)])
  | thenIf {a c : Datum Rat} (ha : IsExpr a) (hc : IsExpr c) :
    IsExpr (.mapping [(.text "then", c), (.text "if", a)])
  | compared {op : String} {lhs rhs : Datum Rat} (hop : op ∈ comparisonSigns) (hl : IsLinear lhs)
    (hr : IsLinear rhs) : IsExpr (operation op [lhs, rhs])
  | isLabel {op : String} {name label : Datum Rat} (hop : op = "==" ∨ op = "!=")
    (hname : IsVariable name) :
    IsExpr (operation op [name, .mapping [(.text "label", label)]])
  | labelIs {op : String} {name label : Datum Rat} (hop : op = "==" ∨ op = "!=")
    (hname : IsVariable name) :
    IsExpr (operation op [.mapping [(.text "label", label)], name])
  | member {op : String} {name : Datum Rat} {labels : List (Datum Rat)}
    (hop : op = "in" ∨ op = "not in") (hname : IsVariable name) :
    IsExpr (operation op [name, .list labels])

/-! ### Atoms -/

/-- An expression has the variables and the truth values of a tree. -/
structure Reads (e : Expr Rat) (d : Datum Rat) : Prop where
  isProper : e.IsProper
  uses_subset : e.uses ⊆ uses d
  eval_eq : ∀ v, e.eval .exact v = truth v d

variable {rule d name label lhs rhs : Datum Rat} {labels : List (Datum Rat)} {n : VarName}
  {e : Expr Rat} {negated : Bool}

theorem isVariable_of_variableName (h : variableName rule d = .ok n) :
    IsVariable d ∧ subject d = n.1 := by
  unfold variableName at h
  split at h <;> dsimp only at h <;> split at h
  · next s =>
    split at h
    · next hs =>
      obtain rfl := Except.ok.inj h
      exact ⟨.var hs, rfl⟩
    · cases h
  · cases h
  · next s _ =>
    split at h
    · next hs =>
      obtain rfl := Except.ok.inj h
      exact ⟨.bare hs, rfl⟩
    · cases h
  · cases h

theorem exists_variableName (h : IsVariable d) : ∃ n, variableName rule d = .ok n := by
  cases h with
  | @bare s hs => exact ⟨⟨s, hs⟩, dif_pos hs⟩
  | @var s hs => exact ⟨⟨s, hs⟩, dif_pos hs⟩

/-- A membership clause is true when the variable has one of the labels, or none if negated. -/
theorem eval_ofLabels (hname : subject name = n.1) (v : Valuation) :
    (Clause.membership (.ofLabels n (labels.map Datum.label) negated) : Clause Rat).eval .exact v =
      (hasLabel v name labels != negated) := by
  have hlists : (MembershipClause.ofLabels n (labels.map Datum.label) negated).lists v =
      hasLabel v name labels := by
    rw [MembershipClause.lists, hasLabel, hname]
    dsimp only [MembershipClause.ofLabels]
    cases v.label n.1 with
    | none => rfl
    | some l =>
      rw [Bool.eq_iff_iff]
      simp [MembershipClause.mem_sortLabels]
  rw [Clause.eval, hlists]
  rfl

/-- What is said of an expression that compares a variable with labels. -/
structure IsLabelled (e : Expr Rat) (name : Datum Rat) (labels : List (Datum Rat))
    (negated : Bool) : Prop where
  isVariable : IsVariable name
  isProper : e.IsProper
  uses_eq : e.uses = [(subject name, .categorical)]
  eval_eq : ∀ v, e.eval .exact v = (hasLabel v name labels != negated)

theorem isLabelled_atom (labels : List (Datum Rat)) (hname : variableName rule name = .ok n) :
    IsLabelled (.atom (.membership (.ofLabels n (labels.map Datum.label) negated))) name labels
      negated := by
  obtain ⟨hvariable, hsubject⟩ := isVariable_of_variableName hname
  refine ⟨hvariable, ?_, ?_, eval_ofLabels hsubject⟩
  · exact List.forall_mem_singleton.mpr ⟨_, rfl, trivial⟩
  · rw [hsubject]
    rfl

theorem isLabelled_of_labelComparison (h : labelComparison rule negated name label = .ok e) :
    IsLabelled e name [label] negated := by
  obtain ⟨n, hn, h⟩ := bind_eq_ok.mp h
  obtain rfl := Except.ok.inj h
  exact isLabelled_atom [label] hn

/-- Only the difference of the sides matters to a comparison. -/
theorem exact_congr {r : Relation} {p q p' q' : Rat} (h : p - q = p' - q') :
    Comparison.exact r p q = Comparison.exact r p' q' := by
  have hle : p ≤ q ↔ p' ≤ q' := by rw [← sub_nonpos, h, sub_nonpos]
  have hge : q ≤ p ↔ q' ≤ p' := by rw [← sub_nonneg, h, sub_nonneg]
  have heq : p = q ↔ p' = q' := by rw [← sub_eq_zero, h, sub_eq_zero]
  rw [Comparison.exact_eq, Comparison.exact_eq]
  cases r <;> simp only [← not_le, hle, hge, heq]

/-- What is said of an expression that compares two linear expressions. -/
structure IsCompared (e : Expr Rat) (r : Relation) (lhs rhs : Datum Rat) : Prop where
  isProper : e.IsProper
  uses_subset : e.uses ⊆ (names lhs ++ names rhs).map (·, .numeric)
  eval_eq : ∀ v, e.eval .exact v = Comparison.exact r (value v.number lhs) (value v.number rhs)

/-- All variables go to the left side with their names, and the difference of the sides is kept. -/
theorem exists_linearComparison {r : Relation} {a b : Affine Rat} (hl : linear rule lhs = .ok a)
    (hr : linear rule rhs = .ok b) :
    ∃ e, linearComparison rule r lhs rhs = .ok e ∧ IsCompared e r lhs rhs := by
  obtain ⟨hleft, hleftReads⟩ := reads_of_linear hl
  obtain ⟨hright, hrightReads⟩ := reads_of_linear hr
  set difference := a.add (b.scale (-1)) with hdifference
  have hhas : ∀ s, difference.Has s → s ∈ names lhs ++ names rhs := by
    intro s hs
    rw [hdifference, Affine.has_add, Affine.has_scale, hleftReads.has_iff,
      hrightReads.has_iff] at hs
    exact List.mem_append.mpr hs
  have hnames : ∀ t ∈ difference.coefs, t.1 ≠ "" := fun t ht =>
    (List.mem_append.mp (hhas t.1 (List.mem_map_of_mem ht))).elim (hleft.names_ne t.1)
      (hright.names_ne t.1)
  obtain ⟨c, hc, hrelation, hrhs, hsum, hvars⟩ := LinearClause.exists_ofPairs_weighted r
    (-difference.const) hnames
  refine ⟨.atom (.linear c), ?_, List.forall_mem_singleton.mpr ⟨_, rfl, trivial⟩, ?_, fun v => ?_⟩
  · rw [linearComparison, hl, ok_bind, hr, ok_bind]
    exact bind_eq_ok.mpr ⟨c, hc, rfl⟩
  · intro u hu
    simp only [Expr.uses, Expr.leaves, List.flatMap_singleton, Sum.elim_inl, Clause.uses] at hu
    obtain ⟨s, hs, rfl⟩ := List.mem_map.mp hu
    exact List.mem_map_of_mem (hhas s (hvars hs))
  · have hvalue : weighted v.number c.terms - c.rhs = value v.number lhs - value v.number rhs := by
      have hdiff : difference.valueAt v.number = value v.number lhs - value v.number rhs := by
        rw [hdifference, Affine.valueAt_add, Affine.valueAt_scale, hleftReads.valueAt_eq,
          hrightReads.valueAt_eq, mul_neg_one, sub_eq_add_neg]
      rw [hsum, hrhs, sub_neg_eq_add, ← hdiff, Affine.valueAt]
    rw [Expr.eval, Clause.eval, hrelation]
    exact exact_congr hvalue

theorem of_linearComparison {r : Relation} (h : linearComparison rule r lhs rhs = .ok e) :
    IsLinear lhs ∧ IsLinear rhs ∧ IsCompared e r lhs rhs := by
  have hread := h
  obtain ⟨a, ha, h⟩ := bind_eq_ok.mp h
  obtain ⟨b, hb, -⟩ := bind_eq_ok.mp h
  obtain ⟨e', he', hcompared⟩ := exists_linearComparison (r := r) ha hb
  obtain rfl := Except.ok.inj (hread.symm.trans he')
  exact ⟨(reads_of_linear ha).1, (reads_of_linear hb).1, hcompared⟩

/-! ### Operators -/

section Operators

variable {op : String} {args : List (Datum Rat)}

theorem uses_compared (hop : op ∈ comparisonSigns) :
    uses (operation op args) = comparedUses args := by
  have hnode : nodeUses [(.text op, .list args)] = comparedUses args := by
    rw [nodeUses.eq_def]
    simp [hop]
  rw [uses, hnode]

theorem truth_compared (hop : op ∈ comparisonSigns) (v : Valuation) :
    truth v (operation op args) = comparedTruth v op args := by
  have hnode : nodeTruth v [(.text op, .list args)] = comparedTruth v op args := by
    rw [nodeTruth.eq_def]
    simp [hop]
  rw [truth, hnode]

/-- A linear expression is no label. -/
theorem IsLinear.label?_eq (h : IsLinear d) : label? d = none := by
  cases h <;> simp [label?]

theorem eq_of_label? (h : label? d = some label) : d = .mapping [(.text "label", label)] := by
  unfold label? at h
  split at h
  · rw [Option.some.inj h]
  · cases h

theorem reads_compared {r : Relation} (h : linearComparison rule r lhs rhs = .ok e)
    (hop : op ∈ comparisonSigns)
    (htruth : ∀ v, comparedTruth v op [lhs, rhs] =
      Comparison.exact r (value v.number lhs) (value v.number rhs)) :
    IsExpr (operation op [lhs, rhs]) ∧ Reads e (operation op [lhs, rhs]) := by
  obtain ⟨hl, hr, hcompared⟩ := of_linearComparison h
  refine ⟨.compared hop hl hr, hcompared.isProper, ?_, fun v => ?_⟩
  · rw [uses_compared hop, comparedUses, hl.label?_eq, hr.label?_eq]
    exact hcompared.uses_subset
  · rw [truth_compared hop, htruth, hcompared.eval_eq]

/-- The relations other than equality compare the values of the sides. -/
theorem comparedTruth_of_symbol {r : Relation} (h : Relation.ofSymbol? op = some r)
    (heq : op ≠ "==") (v : Valuation) : comparedTruth v op [lhs, rhs] =
      Comparison.exact r (value v.number lhs) (value v.number rhs) := by
  obtain rfl : r.symbol = op := eq_of_beq (List.find?_some h :)
  rw [Comparison.exact_eq]
  cases r with
  | eq => exact absurd rfl heq
  | _ => rfl

theorem reads_equality (hop : op = "==" ∨ op = "!=")
    (h : linearComparison rule .eq lhs rhs = .ok e) :
    IsExpr (operation op [lhs, rhs]) ∧
      Reads (if op = "==" then e else .not e) (operation op [lhs, rhs]) := by
  obtain ⟨hl, hr, hcompared⟩ := of_linearComparison h
  have hequal : ∀ v, areEqual v lhs rhs = e.eval .exact v := fun v => by
    rw [areEqual, hl.label?_eq, hr.label?_eq, hcompared.eval_eq, Comparison.exact_eq]
  have hsign : op ∈ comparisonSigns := by rcases hop with rfl | rfl <;> decide
  have huses : uses (operation op [lhs, rhs]) = (names lhs ++ names rhs).map (·, .numeric) := by
    rw [uses_compared hsign, comparedUses, hl.label?_eq, hr.label?_eq]
  refine ⟨.compared hsign hl hr, ?_⟩
  rcases hop with rfl | rfl
  · refine ⟨hcompared.isProper, huses ▸ hcompared.uses_subset, fun v => ?_⟩
    rw [truth_compared hsign]
    exact (hequal v).symm
  · refine ⟨hcompared.isProper, huses ▸ hcompared.uses_subset, fun v => ?_⟩
    rw [truth_compared hsign]
    exact congrArg (! ·) (hequal v).symm

/-- An equality with a label, on whichever side the label stands. -/
theorem reads_label (hop : op = "==" ∨ op = "!=")
    (h : labelComparison rule (op = "!=") name label = .ok e)
    (hexpr : IsVariable name → IsExpr (operation op args))
    (huses : comparedUses args = [(subject name, .categorical)])
    (htruth : ∀ v, comparedTruth v "==" args = hasLabel v name [label] ∧
      comparedTruth v "!=" args = !hasLabel v name [label]) :
    IsExpr (operation op args) ∧ Reads e (operation op args) := by
  have hlabelled := isLabelled_of_labelComparison h
  have hsign : op ∈ comparisonSigns := by rcases hop with rfl | rfl <;> decide
  refine ⟨hexpr hlabelled.isVariable, hlabelled.isProper, ?_, fun v => ?_⟩
  · rw [hlabelled.uses_eq, uses_compared hsign, huses]
    exact List.Subset.refl _
  · rw [hlabelled.eval_eq, truth_compared hsign]
    rcases hop with rfl | rfl
    · rw [(htruth v).1]
      exact Bool.xor_false _
    · rw [(htruth v).2]
      exact Bool.xor_true _

theorem of_comparison (hop : op ∈ comparisonSigns) (h : comparison rule op args = .ok e) :
    IsExpr (operation op args) ∧ Reads e (operation op args) := by
  unfold comparison at h
  split at h
  · next lhs rhs =>
    split at h
    · next hequality =>
      split at h
      · next label hlhs =>
        obtain rfl := eq_of_label? hlhs
        exact reads_label hequality h (.labelIs hequality) rfl fun v => ⟨rfl, rfl⟩
      · next label hlhs hrhs =>
        obtain rfl := eq_of_label? hrhs
        have hequal : ∀ v, areEqual v lhs (.mapping [(.text "label", label)]) =
            hasLabel v lhs [label] := fun v => by rw [areEqual, hlhs]; rfl
        refine reads_label hequality h (.isLabel hequality) (by rw [comparedUses, hlhs]; rfl)
          fun v => ⟨hequal v, congrArg (! ·) (hequal v)⟩
      · obtain ⟨equality, he, h⟩ := bind_eq_ok.mp h
        obtain rfl := Except.ok.inj h
        exact reads_equality hequality he
    · next hother =>
      split at h
      · next r hr =>
        exact reads_compared h hop
          (comparedTruth_of_symbol hr fun heq => hother (.inl heq))
      · cases h
  · cases h

theorem of_membership (hop : op = "in" ∨ op = "not in") (h : membership rule op args = .ok e) :
    IsExpr (operation op args) ∧ Reads e (operation op args) := by
  unfold membership at h
  split at h
  · next name labels =>
    obtain ⟨n, hn, h⟩ := bind_eq_ok.mp h
    obtain rfl := Except.ok.inj h
    have hlabelled : IsLabelled _ name labels (op = "not in") := isLabelled_atom labels hn
    refine ⟨.member hop hlabelled.isVariable, hlabelled.isProper, ?_, fun v => ?_⟩
    · rw [hlabelled.uses_eq]
      rcases hop with rfl | rfl <;> exact List.Subset.refl _
    · rw [hlabelled.eval_eq]
      rcases hop with rfl | rfl
      · exact Bool.xor_false _
      · exact Bool.xor_true _
  · cases h

/-- What is said of several expressions that are read. -/
structure ReadsEach (es : List (Expr Rat)) (ds : List (Datum Rat)) : Prop where
  isExpr : ∀ d ∈ ds, IsExpr d
  isProper : ∀ leaf ∈ Expr.leavesEach es, ∃ c : Clause Rat, leaf = .inl c ∧ c.IsProper
  uses_subset : (Expr.leavesEach es).flatMap (Sum.elim Clause.uses fun _ => []) ⊆ ds.flatMap uses
  eval_eq : ∀ v, es.map (Expr.eval .exact v) = ds.map (truth v)

theorem readsEach_of_forall₂ {es : List (Expr Rat)}
    (h : List.Forall₂ (fun d e => IsExpr d ∧ Reads e d) args es) : ReadsEach es args := by
  induction h with
  | nil => exact ⟨List.forall_mem_nil _, List.forall_mem_nil _, List.Subset.refl _, fun _ => rfl⟩
  | cons hd _ hrestReads =>
    obtain ⟨hexpr, hreads⟩ := hd
    refine ⟨List.forall_mem_cons.mpr ⟨hexpr, hrestReads.isExpr⟩,
      List.forall_mem_append.mpr ⟨hreads.isProper, hrestReads.isProper⟩, ?_, fun v => ?_⟩
    · rw [Expr.leavesEach, List.flatMap_append, List.flatMap_cons]
      exact List.append_subset.mpr
        ⟨List.subset_append_of_subset_left _ hreads.uses_subset,
          List.subset_append_of_subset_right _ hrestReads.uses_subset⟩
    · rw [List.map_cons, List.map_cons, hreads.eval_eq, hrestReads.eval_eq]

theorem reads_and {es : List (Expr Rat)} (hop : op = "and" ∨ op = "&&")
    (h : ReadsEach es args) : IsExpr (operation op args) ∧ Reads (.and es) (operation op args) := by
  refine ⟨.and hop h.isExpr, h.isProper, ?_, fun v => ?_⟩
  · have huses : uses (operation op args) = args.flatMap uses := by
      rcases hop with rfl | rfl <;> exact usesEach_eq args
    exact huses ▸ h.uses_subset
  · have htruth : truth v (operation op args) = (truthEach v args).all id := by
      rcases hop with rfl | rfl <;> rfl
    rw [Expr.eval, Expr.evalAll_eq, htruth, truthEach_eq, ← h.eval_eq, List.all_map]
    rfl

theorem reads_or {es : List (Expr Rat)} (hop : op = "or" ∨ op = "||")
    (h : ReadsEach es args) : IsExpr (operation op args) ∧ Reads (.or es) (operation op args) := by
  refine ⟨.or hop h.isExpr, h.isProper, ?_, fun v => ?_⟩
  · have huses : uses (operation op args) = args.flatMap uses := by
      rcases hop with rfl | rfl <;> exact usesEach_eq args
    exact huses ▸ h.uses_subset
  · have htruth : truth v (operation op args) = (truthEach v args).any id := by
      rcases hop with rfl | rfl <;> rfl
    rw [Expr.eval, Expr.evalAny_eq, htruth, truthEach_eq, ← h.eval_eq, List.any_map]
    rfl

/-- No list is an expression, so a negated one is under an operator of its own kind. -/
theorem reads_not (hop : op = "not" ∨ op = "!") (hd : IsExpr d) (h : Reads e d) :
    IsExpr (.mapping [(.text op, d)]) ∧ Reads (.not e) (.mapping [(.text op, d)]) := by
  have hnode : uses (.mapping [(.text op, d)]) = uses d ∧
      ∀ v, truth v (.mapping [(.text op, d)]) = !truth v d := by
    rcases hop with rfl | rfl <;> cases hd <;> exact ⟨rfl, fun v => rfl⟩
  refine ⟨.not hop hd, h.isProper, hnode.1 ▸ h.uses_subset, fun v => ?_⟩
  rw [hnode.2, ← h.eval_eq, Expr.eval]

theorem reads_ifThen {a c : Datum Rat} {f : Expr Rat} (ha : Reads e a) (hc : Reads f c)
    (huses : uses d = uses a ++ uses c) (htruth : ∀ v, truth v d = (!truth v a || truth v c)) :
    Reads (.ifThen e f) d := by
  refine ⟨List.forall_mem_append.mpr ⟨ha.isProper, hc.isProper⟩, ?_, fun v => ?_⟩
  · rw [huses, Expr.uses, Expr.leaves, List.flatMap_append]
    exact List.append_subset.mpr ⟨List.subset_append_of_subset_left _ ha.uses_subset,
      List.subset_append_of_subset_right _ hc.uses_subset⟩
  · rw [htruth, Expr.eval, ha.eval_eq, hc.eval_eq]

end Operators

/-- Every production reads a tree of the grammar, and makes an expression with the variables and
the truth values of the tree. -/
theorem respected_reads (rule : Datum Rat) : Respected rule fun d e => IsExpr d ∧ Reads e d where
  const b := ⟨.bool b, List.forall_mem_nil _, List.Subset.refl _, fun _ => rfl⟩
  ifThen ha hc := ⟨.ifThen ha.1 hc.1, reads_ifThen ha.2 hc.2 rfl fun _ => rfl⟩
  thenIf ha hc := ⟨.thenIf ha.1 hc.1, reads_ifThen ha.2 hc.2 rfl fun _ => rfl⟩
  not hop hd := reads_not hop hd.1 hd.2
  and hop hes := reads_and hop (readsEach_of_forall₂ hes)
  or hop hes := reads_or hop (readsEach_of_forall₂ hes)
  compared := of_comparison
  member := of_membership

/-- What is read has the variables and the truth values of the tree, and only trees of the grammar
are read. -/
theorem reads_of_expr (rule : Datum Rat) (d : Datum Rat) (e : Expr Rat)
    (h : expr rule d = .ok e) : IsExpr d ∧ Reads e d :=
  (respected_reads rule).of_expr d e h

/-! ### What the reader accepts -/

theorem exists_labelComparison (h : IsVariable name) :
    ∃ e, labelComparison rule negated name label = .ok e := by
  obtain ⟨n, hn⟩ := exists_variableName h
  exact ⟨_, by rw [labelComparison, hn]; rfl⟩

theorem exists_exprs {ds : List (Datum Rat)} (h : ∀ d ∈ ds, ∃ e, expr rule d = .ok e) :
    ∃ es, exprs rule ds = .ok es := by
  induction ds with
  | nil => exact ⟨[], rfl⟩
  | cons d ds ih =>
    obtain ⟨⟨e, he⟩, hds⟩ := List.forall_mem_cons.mp h
    obtain ⟨es, hes⟩ := ih hds
    exact ⟨e :: es, by rw [exprs, he, ok_bind, hes]; rfl⟩

section Exists

variable {op : String} {args : List (Datum Rat)}

theorem expr_compared (hop : op ∈ comparisonSigns) :
    expr rule (operation op args) = comparison rule op args := by
  simp only [comparisonSigns, List.mem_cons, List.not_mem_nil, or_false] at hop
  rcases hop with rfl | rfl | rfl | rfl | rfl | rfl <;> rfl

theorem exists_compared (hop : op ∈ comparisonSigns) (hl : IsLinear lhs) (hr : IsLinear rhs) :
    ∃ e, comparison rule op [lhs, rhs] = .ok e := by
  obtain ⟨a, ha⟩ : ∃ a, linear rule lhs = .ok a := exists_linear hl
  obtain ⟨b, hb⟩ : ∃ b, linear rule rhs = .ok b := exists_linear hr
  have hread : ∀ r, ∃ e, linearComparison rule r lhs rhs = .ok e := fun r =>
    (exists_linearComparison ha hb).imp fun _ => And.left
  rw [comparison]
  split
  · obtain ⟨e, he⟩ := hread .eq
    simp only [hl.label?_eq, hr.label?_eq, he, ok_bind]
    exact ⟨_, rfl⟩
  · next hother =>
    obtain ⟨r, hr⟩ : ∃ r, Relation.ofSymbol? op = some r := by
      simp only [comparisonSigns, List.mem_cons, List.not_mem_nil, or_false] at hop
      rcases hop with rfl | rfl | rfl | rfl | rfl | rfl
      all_goals first | exact ⟨_, rfl⟩ | exact absurd (by decide) hother
    simp only [hr]
    exact hread r

end Exists

/-- Every tree of the grammar is read. -/
theorem exists_expr (h : IsExpr d) : ∃ e, expr rule d = .ok e := by
  induction h with
  | bool b => exact ⟨.const (.bool b), rfl⟩
  | and hop hargs ih =>
    obtain ⟨es, hes⟩ := exists_exprs ih
    refine ⟨.and es, ?_⟩
    rcases hop with rfl | rfl <;> exact bind_eq_ok.mpr ⟨es, hes, rfl⟩
  | or hop hargs ih =>
    obtain ⟨es, hes⟩ := exists_exprs ih
    refine ⟨.or es, ?_⟩
    rcases hop with rfl | rfl <;> exact bind_eq_ok.mpr ⟨es, hes, rfl⟩
  | not hop hd ih =>
    obtain ⟨e, he⟩ := ih
    refine ⟨.not e, ?_⟩
    rcases hop with rfl | rfl <;> exact bind_eq_ok.mpr ⟨e, he, rfl⟩
  | ifThen ha hc iha ihc =>
    obtain ⟨e, he⟩ := iha
    obtain ⟨f, hf⟩ := ihc
    exact ⟨.ifThen e f, by rw [expr, node, he, ok_bind, hf]; rfl⟩
  | thenIf ha hc iha ihc =>
    obtain ⟨e, he⟩ := iha
    obtain ⟨f, hf⟩ := ihc
    exact ⟨.ifThen e f, by rw [expr, node, he, ok_bind, hf]; rfl⟩
  | compared hop hl hr =>
    rw [expr_compared hop]
    exact exists_compared hop hl hr
  | @isLabel op name label hop hname =>
    have hnone : label? name = none := by cases hname <;> simp [label?]
    rw [expr_compared (by rcases hop with rfl | rfl <;> decide), comparison, if_pos hop, hnone]
    exact exists_labelComparison hname
  | labelIs hop hname =>
    rw [expr_compared (by rcases hop with rfl | rfl <;> decide), comparison, if_pos hop]
    exact exists_labelComparison hname
  | @member op name labels hop hname =>
    obtain ⟨n, hn⟩ : ∃ n, variableName rule name = .ok n := exists_variableName hname
    refine ⟨.atom (.membership (.ofLabels n (labels.map Datum.label) (op = "not in"))), ?_⟩
    rcases hop with rfl | rfl <;> exact bind_eq_ok.mpr ⟨n, hn, rfl⟩

end Tree

/-! ### Evaluating what is read -/

/-- An assignment gives a value to every variable in use, and one that is read as a number to
those in numeric use. -/
def Assignment.Gives (a : Assignment Rat) (uses : List (String × VarKind)) : Prop :=
  ∀ u ∈ uses, ∃ d, Assoc.get? u.1 a = some d ∧ (u.2 = .numeric → ∃ x, d.toNumber = .ok x)

theorem Clause.exists_holds_of_gives {a : Assignment Rat} {c : Clause Rat} {tol : Rat}
    (hc : c.IsProper) (h : a.Gives c.uses) : ∃ b, c.holds a tol = .ok b := by
  refine exists_holds_of_covers hc (fun n hn d hd => ?_) fun u hu => ?_
  · obtain ⟨d', hd', hnumber⟩ := h _ hn
    obtain rfl := Option.some.inj (hd.symm.trans hd')
    exact hnumber rfl
  · obtain ⟨d, hd, -⟩ := h u hu
    exact ⟨d, hd⟩

/-- **Reading a tree gives its meaning.** Exactly the trees of the grammar are read, and on every
assignment of the variables in use the expression is true, without slack, where the tree is. -/
theorem Tree.reads_iff_and_holds (rule tree : Datum Rat) :
    ((∃ e, expr rule tree = .ok e) ↔ IsExpr tree) ∧
      ∀ e, expr rule tree = .ok e → ∀ a : Assignment Rat, a.Gives (uses tree) →
        e.holds a 0 = .ok (truth a.valuation tree) := by
  refine ⟨⟨fun ⟨e, he⟩ => (reads_of_expr rule tree e he).1, exists_expr⟩, fun e he a ha => ?_⟩
  obtain ⟨-, hreads⟩ := reads_of_expr rule tree e he
  obtain ⟨b, hb⟩ : ∃ b, e.holds a 0 = .ok b := by
    refine Expr.exists_holds fun leaf hleaf => ?_
    obtain ⟨c, rfl, hc⟩ := hreads.isProper leaf hleaf
    obtain ⟨b, hb⟩ : ∃ b, c.holds a 0 = .ok b := Clause.exists_holds_of_gives hc fun u hu =>
      ha u (hreads.uses_subset (List.mem_flatMap.mpr ⟨_, hleaf, hu⟩))
    exact ⟨c, b, rfl, hb⟩
  rw [hb, ← hreads.eval_eq]
  exact congrArg _ (Expr.eval_of_holds hb).symm

/-- An implication from `3/2 * x + (y - 1) / 2 <= -y`, where the variable `y` is on both sides, to
`"red" != color`; at `x = -1`, `y = 1/3` and a colour that no clause mentions both sides hold. -/
theorem Tree.holds_of_reads_implication :
    let sum : Datum Rat := operation "+" [operation "*" [.real (3 / 2), .text "x"],
      operation "/" [operation "-" [.text "y", .int 1], .int 2]]
    let tree : Datum Rat := .record
      [("if", operation "<=" [sum, operation "-" [.record [("var", .text "y")]]]),
        ("then", operation "!=" [.record [("label", .text "red")], .text "color"])]
    let a : Assignment Rat := [("x", .int (-1)), ("y", .real (1 / 3)), ("color", .null)]
    ∃ e, expr (.text "r") tree = .ok e ∧ a.Gives (uses tree) ∧ e.holds a 0 = .ok true := by
  intro sum tree a
  have hx : IsLinear (.text "x") := .name (by decide)
  have hy : IsLinear (.text "y") := .name (by decide)
  have hquotient : IsLinear (operation "/" [operation "-" [.text "y", .int 1], .int 2]) :=
    .quotient (.difference hy (.int 1)) (.int 2) rfl fun x => (by decide : (2 : Rat) ≠ 0)
  have hsum : IsLinear sum := by
    refine .sum (List.forall_mem_cons.mpr ⟨.product ?_ (by decide), ?_⟩)
    · exact List.forall_mem_cons.mpr ⟨.real _, List.forall_mem_singleton.mpr hx⟩
    · exact List.forall_mem_singleton.mpr hquotient
  have htree : IsExpr tree :=
    .ifThen (.compared (by decide) hsum (.opposite (.var (by decide))))
      (.labelIs (.inr rfl) (.bare (by decide)))
  have hgives : a.Gives (uses tree) := by
    have huses : uses tree = [("x", .numeric), ("y", .numeric), ("y", .numeric),
        ("color", .categorical)] := by decide +kernel
    rw [huses]
    intro u hu
    simp only [List.mem_cons, List.not_mem_nil, or_false] at hu
    rcases hu with rfl | rfl | rfl | rfl
    · exact ⟨.int (-1), rfl, fun _ => ⟨-1, rfl⟩⟩
    · exact ⟨.real (1 / 3), rfl, fun _ => ⟨1 / 3, rfl⟩⟩
    · exact ⟨.real (1 / 3), rfl, fun _ => ⟨1 / 3, rfl⟩⟩
    · exact ⟨.null, rfl, fun h => by cases h⟩
  obtain ⟨hreads, hholds⟩ := reads_iff_and_holds (.text "r") tree
  obtain ⟨e, he⟩ := hreads.mpr htree
  have htruth : truth a.valuation tree = true := by decide +kernel
  exact ⟨e, he, hgives, htruth ▸ hholds e he a hgives⟩

end RuleAudit
