import RuleAudit.Proofs.Query.Stable
import RuleAudit.Proofs.Rule.Derived
import RuleAudit.Proofs.Tree.Meaning

/-!
# Rules that are read can be written again

What is read from a tree is made of clauses, truth values and connectives, and a name that is read
has no white space around it. So a set that is read from items is presentable, provided that the
trees name their variables without white space around them (`Tree.presentable_of_ofItems`).
-/

namespace RuleAudit

open Outcome

namespace Tree

/-! ### Expressions -/

section Expressions

variable {rule d name label lhs rhs : Datum Rat} {op : String} {args : List (Datum Rat)}
  {e : Expr Rat} {negated : Bool}

theorem isWritable_of_linearComparison {r : Relation}
    (h : linearComparison rule r lhs rhs = .ok e) : e.IsWritable := by
  obtain ⟨a, -, h⟩ := bind_eq_ok.mp h
  obtain ⟨b, -, h⟩ := bind_eq_ok.mp h
  obtain ⟨c, -, h⟩ := bind_eq_ok.mp h
  obtain rfl := Except.ok.inj h
  exact Expr.isWritable_atom (c := .linear c) trivial

theorem isWritable_of_labelComparison (h : labelComparison rule negated name label = .ok e) :
    e.IsWritable := by
  obtain ⟨n, -, h⟩ := bind_eq_ok.mp h
  obtain rfl := Except.ok.inj h
  exact .atom trivial

theorem isWritable_of_comparison (h : comparison rule op args = .ok e) : e.IsWritable := by
  unfold comparison at h
  split at h
  · split at h
    · split at h
      · exact isWritable_of_labelComparison h
      · exact isWritable_of_labelComparison h
      · obtain ⟨equality, hequality, h⟩ := bind_eq_ok.mp h
        obtain rfl := Except.ok.inj h
        have hwritable := isWritable_of_linearComparison hequality
        split
        · exact hwritable
        · exact .not hwritable
    · split at h
      · exact isWritable_of_linearComparison h
      · cases h
  · cases h

theorem isWritable_of_membership (h : membership rule op args = .ok e) : e.IsWritable := by
  unfold membership at h
  split at h
  · obtain ⟨n, -, h⟩ := bind_eq_ok.mp h
    obtain rfl := Except.ok.inj h
    exact .atom trivial
  · cases h

theorem forall_isWritable {es : List (Expr Rat)}
    (h : List.Forall₂ (fun (_ : Datum Rat) e => e.IsWritable) args es) :
    ∀ e ∈ es, e.IsWritable := by
  induction h with
  | nil => exact List.forall_mem_nil _
  | cons he _ hes => exact List.forall_mem_cons.mpr ⟨he, hes⟩

theorem respected_isWritable (rule : Datum Rat) : Respected rule fun _ e => e.IsWritable where
  const := .const
  ifThen := .ifThen
  thenIf := .ifThen
  not _ := .not
  and _ hes := .and (forall_isWritable hes)
  or _ hes := .or (forall_isWritable hes)
  compared _ := isWritable_of_comparison
  member _ := isWritable_of_membership

/-- What is read can be written. -/
theorem isWritable_of_expr (rule d : Datum Rat) (e : Expr Rat) (h : expr rule d = .ok e) :
    e.IsWritable :=
  (respected_isWritable rule).of_expr d e h

end Expressions

end Tree

/-! ### Rules -/

section Rules

variable {K : Type} [Scalar K]

/-- A rule that is read has the given name, and the expression of its tree. -/
theorem Rule.of_ofTree {name : String} {tree : Datum K} {r : Rule K}
    (h : ofTree (.text name) tree = .ok r) :
    r.name = name ∧ Tree.expr (.text name) tree = .ok r.expr ∧ r.mark? = none := by
  obtain ⟨e, he, h⟩ := bind_eq_ok.mp h
  obtain ⟨made, hmade, h⟩ := bind_eq_ok.mp h
  obtain ⟨d, -, h⟩ := bind_eq_ok.mp h
  obtain rfl := Except.ok.inj h
  obtain ⟨n, hn, hmade⟩ := bind_eq_ok.mp hmade
  obtain rfl := Except.ok.inj hmade
  exact ⟨Rule.name_of_readName hn, he, rfl⟩

namespace Tree

theorem isItem_of_item {index : Nat} {d tree : Datum K} {name : String}
    (h : item index d = .ok (name, tree)) :
    ∃ given, IsItem d given tree ∧ Text.strip given = name := by
  unfold item at h
  split at h
  · next entries =>
    split at h
    · next hname htree =>
      split at h
      · next given =>
        split at h
        · cases h
        · next hnamed =>
          cases h
          exact ⟨given, ⟨⟨entries, rfl, hname, htree⟩, hnamed⟩, rfl⟩
      · cases h
    · cases h
  · cases h

/-- Every rule that is read is that of an item. -/
theorem gives_of_readItems {strict : Bool} {index : Nat} {items : List (Datum K)}
    {rules : List (Rule K)} (h : (readItems strict index items).outcome = .ok rules) :
    ∀ r ∈ rules, ∃ d ∈ items, Gives d (.ok r) := by
  induction items generalizing index rules with
  | nil =>
    obtain rfl := Except.ok.inj h
    exact List.forall_mem_nil _
  | cons d items ih =>
    have hrest : ∀ rest index, (readItems strict index items).outcome = .ok rest →
        ∀ r ∈ rest, ∃ d' ∈ d :: items, Gives d' (.ok r) := fun rest index hread r hr =>
      (ih hread r hr).imp fun _ => And.imp_left (List.mem_cons_of_mem d)
    rw [readItems, Reported.outcome_bind] at h
    obtain ⟨⟨name, tree⟩, hitem, h⟩ := bind_eq_ok.mp h
    obtain ⟨given, hd, rfl⟩ := isItem_of_item hitem
    dsimp only at h
    split at h
    · next r hr =>
      rw [Reported.outcome_bind] at h
      obtain ⟨rest, hread, h⟩ := bind_eq_ok.mp h
      obtain rfl := Except.ok.inj h
      exact List.forall_mem_cons.mpr ⟨⟨d, List.mem_cons_self, given, tree, hd, hr⟩,
        hrest rest _ hread⟩
    · split at h
      · rw [Reported.outcome_bind, Reported.outcome_warn] at h
        exact hrest rules _ h
      · cases h

/-- A set that is read is presentable, if no variable has white space around it. -/
theorem presentable_of_ofItems {strict : Bool} {items : List (Datum Rat)} {s : RuleSet Rat}
    (h : (ofItems items strict).outcome = .ok s)
    (hnames : ∀ d ∈ items, ∀ name tree, IsItem d name tree →
      ∀ u ∈ uses tree, Text.strip u.1 = u.1) :
    ∃ L, ∀ r ∈ s.rules, r.IsPresentable L := by
  rw [ofItems, Reported.outcome_bind] at h
  obtain ⟨rules, hread, h⟩ := bind_eq_ok.mp h
  obtain ⟨L, hfits, -⟩ := (RuleSet.kindConsistent_of_collect h).exists_lexicon
  refine ⟨L, fun r hr => ⟨hfits r hr, ?_, ?_⟩⟩
  all_goals
    obtain ⟨d, hd, given, tree, hitem, htree⟩ :=
      gives_of_readItems hread r (RuleSet.subset_of_collect h hr)
    obtain ⟨hname, hexpr, hmark⟩ := Rule.of_ofTree htree
  · exact ⟨hmark, fun _ _ _ => isWritable_of_expr _ _ _ hexpr⟩
  · refine ⟨hname ▸ Text.strip_strip given, fun u hu => hnames d hd given tree hitem u ?_⟩
    obtain ⟨form, hform, -⟩ := hfits r hr
    rw [Rule.clauses_eq hform] at hu
    exact (reads_of_expr _ _ _ hexpr).2.uses_subset (Rule.uses_dnf_subset hform hu)

end Tree

end Rules

end RuleAudit
