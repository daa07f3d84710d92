import RuleAudit.Proofs.Datum
import RuleAudit.Proofs.Outcome
import RuleAudit.Tree.Reader

/-!
# Induction on what is read

A tree is read to an expression by productions: one for truth values, two for implications, one for
each connective, and the leaves, which are comparisons and memberships. A relation between trees
and expressions that every production respects holds of all trees that are read
(`Tree.Respected.of_expr`), so no property of the reader has to follow the operators again.
-/

namespace RuleAudit.Tree

open Outcome

variable {K : Type} [Scalar K]

/-- A relation between trees and expressions that every production of the reader respects. -/
structure Respected (rule : Datum K) (P : Datum K → Expr K → Prop) : Prop where
  const : ∀ b, P (.bool b) (.const (.bool b))
  ifThen : ∀ {a c f g}, P a f → P c g →
    P (.mapping [(.text "if", a), (.text "then", c)]) (.ifThen f g)
  /-- The consequent may come first. -/
  thenIf : ∀ {a c f g}, P a f → P c g →
    P (.mapping [(.text "then", c), (.text "if", a)]) (.ifThen f g)
  not : ∀ {op d f}, op = "not" ∨ op = "!" → P d f → P (.mapping [(.text op, d)]) (.not f)
  and : ∀ {op args es}, op = "and" ∨ op = "&&" → List.Forall₂ P args es →
    P (.mapping [(.text op, .list args)]) (.and es)
  or : ∀ {op args es}, op = "or" ∨ op = "||" → List.Forall₂ P args es →
    P (.mapping [(.text op, .list args)]) (.or es)
  compared : ∀ {op args e}, op ∈ comparisonSigns → comparison rule op args = .ok e →
    P (.mapping [(.text op, .list args)]) e
  member : ∀ {op args e}, op = "in" ∨ op = "not in" → membership rule op args = .ok e →
    P (.mapping [(.text op, .list args)]) e

variable {rule : Datum K} {P : Datum K → Expr K → Prop}

theorem forall₂_of_exprs {args : List (Datum K)} {es : List (Expr K)}
    (h : ∀ d ∈ args, ∀ e, expr rule d = .ok e → P d e) (hes : exprs rule args = .ok es) :
    List.Forall₂ P args es := by
  induction args generalizing es with
  | nil =>
    obtain rfl := Except.ok.inj hes
    exact .nil
  | cons d args ih =>
    obtain ⟨hd, hargs⟩ := List.forall_mem_cons.mp h
    obtain ⟨e, he, hes⟩ := bind_eq_ok.mp hes
    obtain ⟨rest, hrest, hes⟩ := bind_eq_ok.mp hes
    obtain rfl := Except.ok.inj hes
    exact .cons (hd e he) (ih hargs hrest)

namespace Respected

variable (hP : Respected rule P)

include hP

theorem of_node {entries : List (Datum K × Datum K)} {e : Expr K}
    (hvalue : ∀ k d, (k, d) ∈ entries → ∀ e, expr rule d = .ok e → P d e)
    (hargs : ∀ k args, (k, .list args) ∈ entries → ∀ d ∈ args, ∀ e, expr rule d = .ok e → P d e)
    (h : node rule entries = .ok e) : P (.mapping entries) e := by
  unfold node at h
  split at h
  · next a c =>
    obtain ⟨f, hf, h⟩ := bind_eq_ok.mp h
    obtain ⟨g, hg, h⟩ := bind_eq_ok.mp h
    obtain rfl := Except.ok.inj h
    exact hP.ifThen (hvalue (.text "if") a (by simp) f hf) (hvalue (.text "then") c (by simp) g hg)
  · next c a =>
    obtain ⟨f, hf, h⟩ := bind_eq_ok.mp h
    obtain ⟨g, hg, h⟩ := bind_eq_ok.mp h
    obtain rfl := Except.ok.inj h
    exact hP.thenIf (hvalue (.text "if") a (by simp) f hf) (hvalue (.text "then") c (by simp) g hg)
  · next op d =>
    split at h
    · next hop =>
      obtain ⟨f, hf, h⟩ := bind_eq_ok.mp h
      obtain rfl := Except.ok.inj h
      exact hP.not hop (hvalue (.text op) d List.mem_cons_self f hf)
    · split at h
      · next args =>
        have heach : ∀ es, exprs rule args = .ok es → List.Forall₂ P args es := fun es =>
          forall₂_of_exprs (hargs _ args List.mem_cons_self)
        split at h
        · next hop =>
          obtain ⟨es, hes, h⟩ := bind_eq_ok.mp h
          obtain rfl := Except.ok.inj h
          exact hP.and hop (heach es hes)
        · split at h
          · next hop =>
            obtain ⟨es, hes, h⟩ := bind_eq_ok.mp h
            obtain rfl := Except.ok.inj h
            exact hP.or hop (heach es hes)
          · split at h
            · next hop => exact hP.compared (List.contains_iff_mem.mp hop) h
            · split at h
              · next hop => exact hP.member hop h
              · cases h
      -- any other value of an operator is an error
      · split at h <;> cases h
  · cases h
  · cases h

/-- What every production respects holds of everything that is read. -/
theorem of_expr : ∀ d, ∀ e, expr rule d = .ok e → P d e
  | .bool b => fun e h => by
    obtain rfl := Except.ok.inj h
    exact hP.const b
  | .mapping entries => fun e h => by
    rw [expr] at h
    refine hP.of_node (fun k d hd => ?_) (fun k args hargs d hd => ?_) h
    · have hlt := Datum.sizeOf_lt_of_value hd
      exact of_expr d
    · have hlt := Datum.sizeOf_lt_of_item hargs hd
      exact of_expr d
  | .null => fun _ h => by cases h
  | .int _ => fun _ h => by cases h
  | .real _ => fun _ h => by cases h
  | .text _ => fun _ h => by cases h
  | .list _ => fun _ h => by cases h
termination_by d => sizeOf d
decreasing_by all_goals assumption

end Respected

end RuleAudit.Tree
