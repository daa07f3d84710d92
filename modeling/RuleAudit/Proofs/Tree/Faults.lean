import RuleAudit.Proofs.Rule.Flaws

/-!
# What a tree can do to its reader

A malformed tree is an error in a definition, or a side that is not linear. There are two faults
of another kind: an integer that is out of range, and a mapping of several keys that have no order,
which are to be listed in order.
-/

namespace RuleAudit

open Outcome

variable {K : Type} [Scalar K]

namespace Tree

/-- A fault of a tree that no error of its definition tells of. -/
inductive Faulty (d : Datum K) : Error K → Prop
  | overflow {n : Int} (hn : Datum.IsPart (.int n) d) (h : (Scalar.ofInt? n : Option K) = none) :
    Faulty d (.overflow .integer)
  | incomparable {entries : List (Datum K × Datum K)} {i : Incomparable}
    (hentries : Datum.IsPart (.mapping entries) d)
    (h : Datum.sort (entries.map (·.1)) = .error i) :
    Faulty d (.mistyped (.incomparable "<" i.left i.right))

/-- What can go wrong when a tree is read. -/
def Fails (d : Datum K) (e : Error K) : Prop :=
  isSkippable e = true ∨ Faulty d e

theorem Fails.mono {d d' : Datum K} {e : Error K} (hd : Datum.IsPart d d') (h : Fails d e) :
    Fails d' e := by
  refine h.imp_right fun hfaulty => ?_
  cases hfaulty with
  | overflow hn hint => exact .overflow (hn.trans hd) hint
  | incomparable hentries hsort => exact .incomparable (hentries.trans hd) hsort

/-! ### Linear expressions -/

section Linear

variable {E : Error K → Prop} {rule : Datum K} {items : List (Datum K)}

theorem failsOnly_linearSum (h : ∀ d ∈ items, FailsOnly E (linear rule d)) (out : Affine K) :
    FailsOnly E (linearSum rule out items) := by
  induction items generalizing out with
  | nil => exact failsOnly_ok out
  | cons d items ih =>
    obtain ⟨hd, hitems⟩ := List.forall_mem_cons.mp h
    rw [linearSum]
    exact hd.bind fun _ _ => ih hitems _

variable (hskip : ∀ e : Error K, isSkippable e = true → E e)

include hskip

theorem failsOnly_linearProduct (h : ∀ d ∈ items, FailsOnly E (linear rule d)) (out : Affine K) :
    FailsOnly E (linearProduct rule out items) := by
  induction items generalizing out with
  | nil => exact failsOnly_ok out
  | cons d items ih =>
    obtain ⟨hd, hitems⟩ := List.forall_mem_cons.mp h
    rw [linearProduct]
    refine hd.bind fun factor _ => ?_
    split
    · exact ih hitems _
    · exact failsOnly_error (hskip _ rfl)

theorem failsOnly_linearNode {entries : List (Datum K × Datum K)}
    (hkeys : E (manyKeys rule entries))
    (h : ∀ k items, (k, .list items) ∈ entries → ∀ d ∈ items, FailsOnly E (linear rule d)) :
    FailsOnly E (linearNode rule entries) := by
  unfold linearNode
  split
  · split
    · exact failsOnly_ite (fun _ => failsOnly_error (hskip _ rfl)) fun _ => failsOnly_ok _
    · exact failsOnly_error (hskip _ rfl)
  · next _ args => exact failsOnly_linearSum (h _ args List.mem_cons_self) _
  · next _ a => exact (h _ [a] List.mem_cons_self a (by simp)).map _
  · next _ a b =>
    refine (h _ [a, b] List.mem_cons_self a (by simp)).bind fun left _ => ?_
    exact (h _ [a, b] List.mem_cons_self b (by simp)).map _
  · exact failsOnly_error (hskip _ rfl)
  · next _ args => exact failsOnly_linearProduct hskip (h _ args List.mem_cons_self) _
  · next _ a c =>
    refine (h _ [a, c] List.mem_cons_self c (by simp)).bind fun divisor _ => ?_
    refine failsOnly_ite (fun _ => failsOnly_error (hskip _ rfl)) fun _ => ?_
    refine failsOnly_ite (fun _ => failsOnly_error (hskip _ rfl)) fun _ => ?_
    exact (h _ [a, c] List.mem_cons_self a (by simp)).map _
  · exact failsOnly_error (hskip _ rfl)
  · exact failsOnly_ite (fun _ => failsOnly_error (hskip _ rfl)) fun _ =>
      failsOnly_error (hskip _ rfl)
  · exact failsOnly_error hkeys

end Linear

variable {d p : Datum K} {rule : Datum K}

theorem failsOnly_number : FailsOnly (Fails d) (number rule d) := by
  rw [number.eq_def]
  split
  · next n =>
    split
    · exact failsOnly_ok _
    · next h => exact failsOnly_error (.inr (.overflow (.refl _) h))
  · exact failsOnly_ite (fun _ => failsOnly_ok _) fun _ => failsOnly_error (.inl rfl)
  · exact failsOnly_error (.inl rfl)

theorem fails_manyKeys (entries : List (Datum K × Datum K)) :
    Fails (.mapping entries) (manyKeys rule entries) := by
  rw [manyKeys]
  split
  · exact .inl rfl
  · next h => exact .inr (.incomparable (.refl _) h)

/-- Reading a linear expression goes wrong as its parts do. -/
theorem failsOnly_linear (rule : Datum K) : ∀ d, FailsOnly (Fails d) (linear rule d)
  | .text s => by
    rw [linear]
    exact failsOnly_ite (fun _ => failsOnly_error (.inl rfl)) fun _ => failsOnly_ok _
  | .mapping entries => by
    rw [linear]
    -- operands are parts of the mapping, so its reader may fail as they do
    refine failsOnly_linearNode (fun _ => .inl) (fails_manyKeys entries)
      fun k items hitems d hd => ?_
    have hlt := Datum.sizeOf_lt_of_item hitems hd
    exact (failsOnly_linear rule d).mono fun e => Fails.mono (.value hitems (.item hd (.refl d)))
  | .null => failsOnly_number.map _
  | .bool _ => failsOnly_number.map _
  | .int _ => failsOnly_number.map _
  | .real _ => failsOnly_number.map _
  | .list _ => failsOnly_number.map _
termination_by d => sizeOf d
decreasing_by assumption

/-! ### Expressions -/

section Expressions

variable {E : Error K → Prop} {items : List (Datum K)}

theorem failsOnly_exprs (h : ∀ d ∈ items, FailsOnly E (expr rule d)) :
    FailsOnly E (exprs rule items) := by
  induction items with
  | nil => exact failsOnly_ok []
  | cons d items ih =>
    obtain ⟨hd, hitems⟩ := List.forall_mem_cons.mp h
    rw [exprs]
    exact hd.bind fun e _ => (ih hitems).map _

variable (hskip : ∀ e : Error K, isSkippable e = true → E e)

include hskip

theorem failsOnly_variableName (d : Datum K) : FailsOnly E (variableName rule d) := by
  unfold variableName
  split
  all_goals
    dsimp only
    split
    · split
      · exact failsOnly_ok _
      · exact failsOnly_error (hskip _ rfl)
    · exact failsOnly_error (hskip _ rfl)

theorem failsOnly_linearComparison {relation : Relation} {lhs rhs : Datum K}
    (hleft : FailsOnly E (linear rule lhs)) (hright : FailsOnly E (linear rule rhs)) :
    FailsOnly E (linearComparison rule relation lhs rhs) := by
  refine hleft.bind fun left _ => hright.bind fun right _ => FailsOnly.map ?_ _
  exact (LinearClause.failsOnly_ofPairs _ _ _).mono fun e he =>
    hskip e (Error.isSkippable_of_isDefinition he)

theorem failsOnly_comparison {op : String} (h : ∀ d ∈ items, FailsOnly E (linear rule d)) :
    FailsOnly E (comparison rule op items) := by
  have hlabel : ∀ negated name label,
      FailsOnly E (labelComparison rule negated name label) := fun negated name label =>
    (failsOnly_variableName hskip name).map _
  unfold comparison
  split
  · next lhs rhs =>
    have hlinear : ∀ relation, FailsOnly E (linearComparison rule relation lhs rhs) :=
      fun relation => failsOnly_linearComparison hskip (h lhs (by simp)) (h rhs (by simp))
    refine failsOnly_ite (fun _ => ?_) fun _ => ?_
    · split
      · exact hlabel _ _ _
      · exact hlabel _ _ _
      · exact (hlinear .eq).map _
    · split
      · exact hlinear _
      · exact failsOnly_error (hskip _ rfl)
  · exact failsOnly_error (hskip _ rfl)

theorem failsOnly_membership {op : String} (items : List (Datum K)) :
    FailsOnly E (membership rule op items) := by
  unfold membership
  split
  · exact (failsOnly_variableName hskip _).map _
  · exact failsOnly_error (hskip _ rfl)

theorem failsOnly_node {entries : List (Datum K × Datum K)}
    (hkeys : E (manyKeys rule entries))
    (hvalue : ∀ e ∈ entries, FailsOnly E (expr rule e.2))
    (hitems : ∀ k items, (k, .list items) ∈ entries → ∀ d ∈ items, FailsOnly E (expr rule d))
    (hlinear : ∀ k items, (k, .list items) ∈ entries → ∀ d ∈ items,
      FailsOnly E (linear rule d)) : FailsOnly E (node rule entries) := by
  unfold node
  split
  · next a c =>
    exact (hvalue (.text "if", a) (by simp)).bind fun _ _ =>
      (hvalue (.text "then", c) (by simp)).map _
  · next c a =>
    exact (hvalue (.text "if", a) (by simp)).bind fun _ _ =>
      (hvalue (.text "then", c) (by simp)).map _
  · next op value =>
    refine failsOnly_ite (fun _ => (hvalue (.text op, value) (by simp)).map _) fun _ => ?_
    split
    · next args =>
      have hargs := hitems _ args List.mem_cons_self
      refine failsOnly_ite (fun _ => (failsOnly_exprs hargs).map _) fun _ => ?_
      refine failsOnly_ite (fun _ => (failsOnly_exprs hargs).map _) fun _ => ?_
      refine failsOnly_ite
        (fun _ => failsOnly_comparison hskip (hlinear _ args List.mem_cons_self)) fun _ => ?_
      exact failsOnly_ite (fun _ => failsOnly_membership hskip args) fun _ =>
        failsOnly_error (hskip _ rfl)
    · exact failsOnly_ite (fun _ => failsOnly_error (hskip _ rfl)) fun _ =>
        failsOnly_error (hskip _ rfl)
  · exact failsOnly_error (hskip _ rfl)
  · exact failsOnly_error hkeys

end Expressions

/-- Reading an expression goes wrong as its parts do. -/
theorem failsOnly_expr (rule : Datum K) : ∀ d, FailsOnly (Fails d) (expr rule d)
  | .bool b => failsOnly_ok _
  | .mapping entries => by
    rw [expr]
    have hpart : ∀ k items, (k, .list items) ∈ entries → ∀ d ∈ items,
        Datum.IsPart d (.mapping entries) := fun k items hitems d hd =>
      .value hitems (.item hd (.refl d))
    refine failsOnly_node (fun _ => .inl) (fails_manyKeys entries) (fun ⟨k, d⟩ hd => ?_)
      (fun k items hitems d hd => ?_) fun k items hitems d hd => ?_
    · have hlt := Datum.sizeOf_lt_of_value hd
      exact (failsOnly_expr rule d).mono fun e => Fails.mono (.value hd (.refl d))
    · have hlt := Datum.sizeOf_lt_of_item hitems hd
      exact (failsOnly_expr rule d).mono fun e => Fails.mono (hpart k items hitems d hd)
    · exact (failsOnly_linear rule d).mono fun e => Fails.mono (hpart k items hitems d hd)
  | .null => failsOnly_error (.inl rfl)
  | .int _ => failsOnly_error (.inl rfl)
  | .real _ => failsOnly_error (.inl rfl)
  | .text _ => failsOnly_error (.inl rfl)
  | .list _ => failsOnly_error (.inl rfl)
termination_by d => sizeOf d
decreasing_by all_goals assumption

theorem failsOnly_ofTree (name tree : Datum K) :
    FailsOnly (Fails tree) (Rule.ofTree name tree) := by
  refine (failsOnly_expr name tree).bind fun e _ => ?_
  have hdefinition : ∀ e : Error K, e.IsDefinition → Fails tree e := fun e he =>
    .inl (Error.isSkippable_of_isDefinition he)
  refine ((Rule.failsOnly_make name e).mono hdefinition).bind fun r _ => ?_
  exact (r.failsOnly_dnf.mono hdefinition).map _

end Tree

end RuleAudit
