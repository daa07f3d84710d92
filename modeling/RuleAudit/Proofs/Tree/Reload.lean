import RuleAudit.Files
import RuleAudit.Proofs.Dnf.ReadOff
import RuleAudit.Proofs.Rule.Collect
import RuleAudit.Proofs.Tree.RoundTrip

/-!
# Reloading rules

A rule set is written as a list of items and read back. Names without white space around them stay,
the expressions that are read are equal to those written, and so are their normal forms but for the
signs of zeros. So all rules fit together again, and the set that is read is equal to the one that
was written (`RuleFile.exists_reload`). White space around a name is lost, and with it a rule of a
set in which another rule has the name without it (`Tree.reload_drops_rule`).
-/

namespace RuleAudit

open Outcome

variable {K : Type} [Scalar K]

/-! ### Rules -/

theorem Dnf.within_mapClauses {f : Clause K → Clause K} {P : Clause K → Prop} {d : Dnf K} :
    (d.mapClauses f).Within P ↔ d.Within fun c => P (f c) := by
  simp only [Within, mapClauses, List.forall_mem_map]

theorem Clause.isProper_dropSign (c : Clause K) : c.dropSign.IsProper ↔ c.IsProper := by
  cases c <;> exact Iff.rfl

theorem Clause.hasKinds_dropSign {kinds : String → VarKind} (c : Clause K) :
    c.dropSign.HasKinds kinds ↔ c.HasKinds kinds := by
  rw [HasKinds, HasKinds, isProper_dropSign, uses_dropSign]

/-- Normal forms that differ in the signs of zeros use the same variables. -/
theorem Dnf.within_hasKinds_of_dropSign {kinds : String → VarKind} {d e : Dnf K}
    (h : e.mapClauses Clause.dropSign = d.mapClauses Clause.dropSign)
    (hd : d.Within (Clause.HasKinds kinds)) : e.Within (Clause.HasKinds kinds) := by
  have hkinds : ∀ d : Dnf K, (d.mapClauses Clause.dropSign).Within (Clause.HasKinds kinds) ↔
      d.Within (Clause.HasKinds kinds) := fun d => by
    simp only [within_mapClauses, Clause.hasKinds_dropSign]
  rwa [← hkinds, h, hkinds]

namespace Rule

/-- A rule with the name, and but for the signs of zeros the expression and the normal form, of
another. -/
structure Rereads (r q : Rule K) : Prop where
  name_eq : q.name = r.name
  expr_eq : q.expr.dropSigns = r.expr.dropSigns
  exists_dnf : ∀ d, r.dnf = .ok d →
    ∃ e, q.dnf = .ok e ∧ e.mapClauses Clause.dropSign = d.mapClauses Clause.dropSign
  unmarked : q.normal? = none ∧ q.mark? = none

/-- Rules that are read back agree on the kinds of variables as they did before. -/
theorem kindConsistent_of_rereads {rules reread : List (Rule K)}
    (h : List.Forall₂ Rereads rules reread) (hk : KindConsistent rules) :
    KindConsistent reread := by
  obtain ⟨kinds, hkinds⟩ := hk
  refine ⟨kinds, ?_⟩
  induction h with
  | nil => exact List.forall_mem_nil _
  | cons hr _ ih =>
    obtain ⟨⟨d, hd, hwithin⟩, hrules⟩ := List.forall_mem_cons.mp hkinds
    obtain ⟨e, he, hsame⟩ := hr.exists_dnf d hd
    exact List.forall_mem_cons.mpr
      ⟨⟨e, he, Dnf.within_hasKinds_of_dropSign hsame hwithin⟩, ih hrules⟩

theorem names_of_rereads {rules reread : List (Rule K)} (h : List.Forall₂ Rereads rules reread) :
    reread.map (·.name) = rules.map (·.name) := by
  induction h with
  | nil => rfl
  | cons hr _ ih => rw [List.map_cons, hr.name_eq, List.map_cons, ih]

variable [Scalar.Lawful K] {r : Rule K}

/-- Rules that are read back are equal to those written. -/
theorem beq_of_rereads {rules reread : List (Rule K)} (h : List.Forall₂ Rereads rules reread)
    (hwritable : ∀ r ∈ rules, r.expr.IsWritable) : (reread == rules) = true := by
  induction h with
  | nil => rfl
  | @cons r q rules reread hr _ ih =>
    obtain ⟨hexpr, hwritable⟩ := List.forall_mem_cons.mp hwritable
    have hname : (q.name == r.name) = true := beq_iff_eq.mpr hr.name_eq
    have hsame : (q.expr == r.expr) = true := Expr.same_of_dropSigns hexpr hr.expr_eq
    have hbeq : (q == r) = (q.name == r.name && (q.sharesMark r || q.expr == r.expr)) := rfl
    rw [List.cons_beq_cons, hbeq, hname, hsame, ih hwritable, Bool.or_true]
    rfl

/-- A rule with a normal form is read from what it is written as. -/
theorem exists_rereads {d : Dnf K} {kinds : String → VarKind} (he : r.expr.IsWritable)
    (hd : r.dnf = .ok d) (hk : d.Within (Clause.HasKinds kinds)) :
    ∃ tree q, Tree.ofExpr r.expr = .ok tree ∧ ofTree (.text r.name) tree = .ok q ∧
      r.Rereads q := by
  obtain ⟨tree, f, hwrite, hread, hdrop⟩ :=
    Tree.exists_dropSigns_of_ofExpr (.text r.name) he
  obtain ⟨table, htable⟩ : ∃ table, d.kinds (.text r.name) = .ok table := Dnf.exists_kinds hk
  -- the two expressions have the same normal form but for the signs of zeros
  have hforms : f.dropSigns.toDnf (.text r.name) = r.expr.dropSigns.toDnf (.text r.name) := by
    rw [hdrop]
  obtain ⟨e, hform, hsame⟩ := Expr.exists_toDnf_of_dropSigns hforms (toDnf_eq hd htable)
  let q : Rule K := ⟨r.name, f, none, r.named, by simp, none⟩
  have hq : q.dnf = .ok e := hform
  have hmake : make (.text r.name) f = .ok q := by
    rw [make, readName_eq r.named]
    rfl
  refine ⟨tree, q, hwrite, ?_, rfl, hdrop, fun d' hd' => ⟨e, hq, ?_⟩, rfl, rfl⟩
  · rw [ofTree, hread, ok_bind, hmake, ok_bind, hq]
    rfl
  · rw [hsame, Except.ok.inj (hd.symm.trans hd')]

end Rule

namespace Tree

variable [Scalar.Lawful K]

/-- Rules are written one by one, and read back one by one without a warning. -/
theorem exists_readItems {rules : List (Rule K)} (hk : KindConsistent rules)
    (hwritable : ∀ r ∈ rules, r.expr.IsWritable)
    (hnames : ∀ r ∈ rules, Text.strip r.name = r.name) :
    ∃ items reread, rules.mapM ofRule = .ok items ∧
      (∀ strict index, readItems strict index items = pure reread) ∧
      List.Forall₂ Rule.Rereads rules reread := by
  obtain ⟨kinds, hkinds⟩ := hk
  induction rules with
  | nil => exact ⟨[], [], rfl, fun _ _ => rfl, .nil⟩
  | cons r rules ih =>
    obtain ⟨⟨d, hd, hwithin⟩, hkinds⟩ := List.forall_mem_cons.mp hkinds
    obtain ⟨hr, hwritable⟩ := List.forall_mem_cons.mp hwritable
    obtain ⟨hname, hnames⟩ := List.forall_mem_cons.mp hnames
    obtain ⟨tree, q, hwrite, hread, hrereads⟩ := Rule.exists_rereads hr hd hwithin
    obtain ⟨items, reread, hwrites, hreads, hall⟩ := ih hwritable hnames hkinds
    refine ⟨namedItem r.name tree :: items, q :: reread, ?_, fun strict index => ?_,
      .cons hrereads hall⟩
    · rw [List.mapM_cons, ofRule, hwrite, hwrites]
      rfl
    · have hgives : Gives (namedItem r.name tree) (.ok q) :=
        ⟨r.name, tree, isItem_namedItem tree r.named, by rw [hname, hread]⟩
      rw [readItems_of_ok hgives, hreads]
      rfl

/-- What is read from the items of a set. -/
theorem exists_ofItems {s : RuleSet K} (hk : KindConsistent s.rules)
    (hwritable : ∀ r ∈ s.rules, r.expr.IsWritable)
    (hnames : ∀ r ∈ s.rules, Text.strip r.name = r.name) :
    ∃ items t, ofRules s = .ok items ∧ (∀ strict, ofItems items strict = ⟨.ok t, []⟩) ∧
      List.Forall₂ Rule.Rereads s.rules t.rules := by
  obtain ⟨items, reread, hwrite, hread, hall⟩ := exists_readItems hk hwritable hnames
  have hnodup : (reread.map (·.name)).Nodup := Rule.names_of_rereads hall ▸ s.distinct
  refine ⟨items, ⟨reread, hnodup⟩, hwrite, fun strict => ?_, hall⟩
  rw [ofItems, hread]
  exact RuleSet.collect_eq hnodup (Rule.kindConsistent_of_rereads hall hk) strict

end Tree

/-- **Reloading keeps a rule set.** A set of collected rules whose names have no white space around
them is written, and what is written is read without a warning, strictly or not, as a set equal to
it; so is the file, if its text reads as what was written. -/
theorem RuleFile.exists_reload [Scalar.Lawful K] {strict : Bool} {given : List (Rule K)}
    {s : RuleSet K} (hs : (RuleSet.collect given strict).outcome = .ok s)
    (hwritable : ∀ r ∈ s.rules, r.expr.IsWritable)
    (hnames : ∀ r ∈ s.rules, Text.strip r.name = r.name) :
    ∃ items text t, Tree.ofRules s = .ok items ∧ write s = .ok text ∧ (t == s) = true ∧
      ∀ strict, Tree.ofItems items strict = ⟨.ok t, []⟩ ∧
        (readYaml text = .ok (.record [("rules", .list items)]) →
          read text strict = ⟨.ok t, []⟩) := by
  obtain ⟨items, t, hwrite, hread, hall⟩ :=
    Tree.exists_ofItems (RuleSet.kindConsistent_of_collect hs) hwritable hnames
  refine ⟨items, Yaml.write (.record [("rules", .list items)]), t, hwrite, ?_,
    Rule.beq_of_rereads hall hwritable, fun strict => ⟨hread strict, fun htext => ?_⟩⟩
  · rw [write, hwrite]
    rfl
  · rw [read, htext]
    exact hread strict

/-- The clause `x <= 1` over doubles. -/
def lowClause : LinearClause Float where
  terms := [("x", 1)]
  relation := .le
  rhs := 1
  ascending := by decide
  nonzero := by decide +kernel
  named := by decide

theorem not_blank_low : ¬Text.Blank "low" := by decide

theorem colour_ne_empty : "colour" ≠ "" := by decide

/-- A rule about a number, and a rule about a label. -/
def fileRules : List (Rule Float) :=
  [⟨"low", .atom (.linear lowClause), none, not_blank_low, by simp, none⟩,
    ⟨"warm", .not (.atom (.membership ⟨"colour", ["red"], false, by decide, colour_ne_empty⟩)),
      none, by decide, by simp, none⟩]

/-- The set of these rules. -/
def fileSet : RuleSet Float :=
  ⟨fileRules, by decide⟩

/-- The rule file of these rules. -/
def fileText : String :=
  "rules:\n- name: low\n  expr:\n    <=:\n    - x\n    - 1.0\n" ++
    "- name: warm\n  expr:\n    not:\n      in:\n      - colour\n      - - red\n"

/-- The items of these rules. -/
def fileItems : List (Datum Float) :=
  [Tree.namedItem "low" (.record [("<=", .list [.text "x", .real 1])]),
    Tree.namedItem "warm" (.record [("not",
      .record [("in", .list [.text "colour", .list [.text "red"]])])])]

/-- Whether data are those of the file. -/
def isFileData : Datum Float → Bool
  | .mapping [(.text "rules", .list [
      .mapping [(.text "name", .text "low"),
        (.text "expr", .mapping [(.text "<=", .list [.text "x", .real x])])],
      .mapping [(.text "name", .text "warm"),
        (.text "expr", .mapping [(.text "not",
          .mapping [(.text "in", .list [.text "colour", .list [.text "red"]])])])]])] => x == 1
  | _ => false

theorem eq_of_isFileData {d : Datum Float} (h : isFileData d = true) :
    d = .record [("rules", .list fileItems)] := by
  unfold isFileData at h
  split at h
  · next x =>
    obtain rfl : x = 1 := Scalar.Lawful.eq_of_beq h Scalar.Lawful.one_ne_zero
    rfl
  · cases h

theorem readYaml_fileText :
    readYaml fileText = .ok (.record [("rules", .list fileItems)]) := by
  have hdata : (readYaml fileText).toOption.any isFileData = true := by decide +kernel
  obtain ⟨d, hread, hdata⟩ := exists_of_any_toOption hdata
  rw [hread, eq_of_isFileData hdata]

theorem ofRules_fileSet : Tree.ofRules fileSet = .ok fileItems := by
  have hone : ((1 : Float) == 1) = true := Scalar.Lawful.beq_self (by decide +kernel)
  have hterm : Tree.ofTerm ("x", (1 : Float)) = .text "x" := if_pos hone
  exact congrArg (fun d : Datum Float => Except.ok
    [Tree.namedItem "low" (.record [("<=", .list [d, .real 1])]), fileItems[1]]) hterm

/-- The file reads as what was written, so it is read as the two rules. -/
theorem RuleFile.exists_reload_file :
    (RuleSet.collect fileRules true).outcome = .ok fileSet ∧
    (∀ r ∈ fileSet.rules, r.expr.IsWritable) ∧
    (∀ r ∈ fileSet.rules, Text.strip r.name = r.name) ∧ write fileSet = .ok fileText ∧
    ∃ t, (t == fileSet) = true ∧ ∀ strict, Tree.ofItems fileItems strict = ⟨.ok t, []⟩ ∧
      read fileText strict = ⟨.ok t, []⟩ := by
  have hcollect : (RuleSet.collect fileRules true).outcome = .ok fileSet :=
    congrArg Reported.outcome (RuleSet.collect_eq fileSet.distinct (by decide +kernel) true)
  have hclause : (Clause.linear lowClause).IsValid := by
    refine ⟨?_, ?_⟩ <;> decide +kernel
  have hwritable : ∀ r ∈ fileSet.rules, r.expr.IsWritable :=
    List.forall_mem_cons.mpr ⟨.atom hclause, List.forall_mem_singleton.mpr (.not (.atom trivial))⟩
  have hnames : ∀ r ∈ fileSet.rules, Text.strip r.name = r.name := by decide
  have htext : write fileSet = .ok fileText := eq_ok_of_toOption (by decide +kernel)
  obtain ⟨items, text, t, hwrite, htext', hsame, hread⟩ := exists_reload hcollect hwritable hnames
  obtain rfl := Except.ok.inj (ofRules_fileSet.symm.trans hwrite)
  obtain rfl := Except.ok.inj (htext.symm.trans htext')
  exact ⟨hcollect, hwritable, hnames, htext, t, hsame, fun strict =>
    ⟨(hread strict).1, (hread strict).2 readYaml_fileText⟩⟩

theorem not_blank_a : ¬Text.Blank "a" := by decide

/-- Two rules whose names differ in white space only. -/
def spacedSet : RuleSet Float where
  rules := [⟨" a", .verum, none, by decide, by simp, none⟩,
    ⟨"a", .falsum, none, not_blank_a, by simp, none⟩]
  distinct := by decide

/-- The names of two rules are read as one, so the second rule is skipped with a warning, or is an
error. -/
theorem Tree.reload_drops_rule :
    (RuleSet.collect spacedSet.rules true).outcome = .ok spacedSet ∧
    (∀ r ∈ spacedSet.rules, r.expr.IsWritable) ∧
    ∃ items t, Tree.ofRules spacedSet = .ok items ∧ (ofItems items false).outcome = .ok t ∧
      (ofItems items false).warnings.length = 1 ∧ t.names = ["a"] ∧ (t == spacedSet) = false ∧
      (ofItems items true).outcome.toOption.isNone = true := by
  have hcollect : (RuleSet.collect spacedSet.rules true).outcome = .ok spacedSet :=
    congrArg Reported.outcome (RuleSet.collect_eq spacedSet.distinct (by decide +kernel) true)
  have hwritable : ∀ r ∈ spacedSet.rules, r.expr.IsWritable :=
    List.forall_mem_cons.mpr ⟨.const true, List.forall_mem_singleton.mpr (.const false)⟩
  let items : List (Datum Float) := [namedItem " a" (.bool true), namedItem "a" (.bool false)]
  have hread : (ofItems [namedItem " a" (.bool true), namedItem "a" (.bool false)]
      false).outcome.toOption.any (fun t => t.names == ["a"] && !(t == spacedSet)) = true := by
    decide +kernel
  obtain ⟨t, ht, hkept⟩ := exists_of_any_toOption hread
  rw [Bool.and_eq_true, beq_iff_eq, Bool.not_eq_true'] at hkept
  exact ⟨hcollect, hwritable, items, t, rfl, ht, by decide +kernel, hkept.1, hkept.2,
    by decide +kernel⟩

end RuleAudit
