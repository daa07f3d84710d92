import Mathlib.Algebra.Ring.Int.Defs
import RuleAudit.Proofs.Tree.Faults

/-!
# Loading rules leniently

When rules are not loaded strictly, a rule with an error in its definition is skipped with a
warning, and so is one that does not fit with the rules before it. Nothing else can go wrong but the
faults of trees that are no errors in a definition.
-/

namespace RuleAudit

open Outcome

variable {K : Type} [Scalar K]

/-! ### Rules that fit together -/

namespace RuleSet

theorem Collected.rules_of_add {c next : Collected K} {r : Rule K} (h : c.add r = .ok next) :
    next.rules = c.rules ++ [r] ∧ r.name ∉ c.rules.map (·.name) := by
  rw [add] at h
  split at h
  · cases h
  · next hname =>
    obtain ⟨kinds, -, h⟩ := bind_eq_ok.mp h
    obtain ⟨merged, -, h⟩ := bind_eq_ok.mp h
    obtain rfl := Except.ok.inj h
    refine ⟨rfl, fun hmem => hname ?_⟩
    obtain ⟨q, hq, heq⟩ := List.mem_map.mp hmem
    exact List.any_eq_true.mpr ⟨q, hq, beq_iff_eq.mpr heq⟩

/-- Adding a rule keeps the names of those collected different. -/
theorem Collected.nodup_of_add {c next : Collected K} {r : Rule K} (h : c.add r = .ok next)
    (hc : (c.rules.map (·.name)).Nodup) : (next.rules.map (·.name)).Nodup := by
  obtain ⟨hrules, hname⟩ := rules_of_add h
  rw [hrules, List.map_append, List.map_singleton]
  exact List.nodup_append.mpr ⟨hc, List.nodup_singleton _, fun a ha b hb hab =>
    hname (List.mem_singleton.mp hb ▸ hab ▸ ha)⟩

end RuleSet

namespace Tree

/-! ### Items -/

/-- A mapping with a name, which is more than white space, and an expression. -/
structure IsItem (d : Datum K) (name : String) (tree : Datum K) : Prop where
  exists_entries : ∃ entries, d = .mapping entries ∧
    Datum.field? "name" entries = some (.text name) ∧ Datum.field? "expr" entries = some tree
  named : ¬ Text.Blank name

theorem IsItem.item_eq {d tree : Datum K} {name : String} (h : IsItem d name tree) (index : Nat) :
    item index d = .ok (Text.strip name, tree) := by
  obtain ⟨⟨entries, rfl, hname, htree⟩, hnamed⟩ := h
  rw [item, hname, htree]
  exact if_neg hnamed

/-- A warning that a rule was skipped for an error in its definition. -/
def IsSkip (w : Warning K) : Prop :=
  ∃ e, w = .skippedRule e ∧ isSkippable e = true

/-- The rule of an item, which is read from its expression and named after it. -/
def Gives (d : Datum K) (x : Except (Error K) (Rule K)) : Prop :=
  ∃ name tree, IsItem d name tree ∧ Rule.ofTree (.text (Text.strip name)) tree = x

/-- Rules were read from some of the items, and there is a warning for each of the others. An
item with a malformed expression is among the others. -/
structure Loads (items : List (Datum K)) (rules : List (Rule K)) (warnings : List (Warning K)) :
    Prop where
  length_eq : warnings.length + rules.length = items.length
  skips : ∀ w ∈ warnings, IsSkip w
  reads : ∀ r ∈ rules, ∃ d ∈ items, Gives d (.ok r)
  warns : ∀ d ∈ items, ∀ e, Gives d (.error e) → .skippedRule e ∈ warnings

variable {items : List (Datum K)} {rules kept : List (Rule K)} {warnings more : List (Warning K)}
  {d : Datum K} {r : Rule K} {e : Error K}

/-- An item gives one outcome. -/
theorem Gives.unique {x y : Except (Error K) (Rule K)} (hx : Gives d x) (hy : Gives d y) :
    x = y := by
  obtain ⟨name, tree, ⟨⟨entries, rfl, hname, htree⟩, -⟩, rfl⟩ := hx
  obtain ⟨name', tree', ⟨⟨entries', hentries, hname', htree'⟩, -⟩, rfl⟩ := hy
  obtain rfl := Datum.mapping.inj hentries
  obtain rfl := Datum.text.inj (Option.some.inj (hname.symm.trans hname'))
  obtain rfl := Option.some.inj (htree.symm.trans htree')
  rfl

theorem Loads.nil : Loads ([] : List (Datum K)) [] [] :=
  ⟨rfl, List.forall_mem_nil _, List.forall_mem_nil _, List.forall_mem_nil _⟩

theorem Loads.read (hd : Gives d (.ok r)) (h : Loads items rules warnings) :
    Loads (d :: items) (r :: rules) warnings where
  length_eq := congrArg (· + 1) h.length_eq
  skips := h.skips
  reads := List.forall_mem_cons.mpr ⟨⟨d, List.mem_cons_self, hd⟩, fun r hr =>
    (h.reads r hr).imp fun _ => And.imp_left (List.mem_cons_of_mem d)⟩
  warns := List.forall_mem_cons.mpr ⟨fun _ he => (nomatch hd.unique he), h.warns⟩

theorem Loads.skip (hd : Gives d (.error e)) (he : isSkippable e = true)
    (h : Loads items rules warnings) :
    Loads (d :: items) rules (.skippedRule e :: warnings) where
  length_eq := by
    rw [List.length_cons, List.length_cons, ← h.length_eq]
    omega
  skips := List.forall_mem_cons.mpr ⟨⟨e, rfl, he⟩, h.skips⟩
  reads r hr := (h.reads r hr).imp fun _ => And.imp_left (List.mem_cons_of_mem d)
  warns := by
    refine List.forall_mem_cons.mpr ⟨fun e' he' => ?_, fun d hd e he => ?_⟩
    · obtain rfl := Except.error.inj (hd.unique he')
      exact List.mem_cons_self
    · exact List.mem_cons_of_mem _ (h.warns d hd e he)

/-- Rules that were read may be left out later on, with a warning for each. -/
theorem Loads.select (h : Loads items rules warnings) (hkept : kept ⊆ rules)
    (hlength : more.length + kept.length = rules.length) (hmore : ∀ w ∈ more, IsSkip w) :
    Loads items kept (warnings ++ more) where
  length_eq := by
    rw [List.length_append, ← h.length_eq]
    omega
  skips := List.forall_mem_append.mpr ⟨h.skips, hmore⟩
  reads r hr := h.reads r (hkept hr)
  warns d hd e he := List.mem_append_left _ (h.warns d hd e he)

/-! ### Reading the items -/

section Reading

variable {strict : Bool} {index : Nat}

theorem readItems_of_ok (hd : Gives d (.ok r)) :
    readItems strict index (d :: items) = do
      return r :: (← readItems strict (index + 1) items) := by
  obtain ⟨name, tree, hd, hr⟩ := hd
  rw [readItems, hd.item_eq, Reported.lift_ok_bind]
  simp only [hr]

theorem readItems_of_isSkippable (hd : Gives d (.error e)) (he : isSkippable e = true) :
    readItems false index (d :: items) =
      Reported.warn (.skippedRule e) >>= fun _ => readItems false (index + 1) items := by
  obtain ⟨name, tree, hd, hr⟩ := hd
  rw [readItems, hd.item_eq, Reported.lift_ok_bind]
  simp only [hr, he]
  rfl

theorem readItems_of_not_isSkippable (hd : Gives d (.error e)) (he : isSkippable e = false) :
    readItems strict index (d :: items) = throw e := by
  obtain ⟨name, tree, hd, hr⟩ := hd
  rw [readItems, hd.item_eq, Reported.lift_ok_bind]
  simp only [hr, he]
  rfl

end Reading

/-- The expression of an item is at fault. -/
def IsFaulty (d : Datum K) (e : Error K) : Prop :=
  ∃ name tree, IsItem d name tree ∧ Faulty tree e

/-- An item gives a rule, or an error that lets the rule be skipped, or its expression is at
fault. -/
theorem gives_cases (hd : ∃ name tree, IsItem d name tree) :
    (∃ r, Gives d (.ok r)) ∨ (∃ e, Gives d (.error e) ∧ isSkippable e = true) ∨
      ∃ e, Gives d (.error e) ∧ isSkippable e = false ∧ IsFaulty d e := by
  obtain ⟨name, tree, hd⟩ := hd
  cases hread : Rule.ofTree (.text (Text.strip name)) tree with
  | ok r => exact .inl ⟨r, name, tree, hd, hread⟩
  | error e =>
    refine .inr ?_
    cases he : isSkippable e with
    | true => exact .inl ⟨e, ⟨name, tree, hd, hread⟩, he⟩
    | false =>
      have hfaulty := (failsOnly_ofTree _ tree e hread).resolve_left (by simp [he])
      exact .inr ⟨e, ⟨name, tree, hd, hread⟩, he, name, tree, hd, hfaulty⟩

/-- Unless the expression of an item is at fault, the items are read to the end. -/
theorem loads_or_isFaulty (hitems : ∀ d ∈ items, ∃ name tree, IsItem d name tree) (index : Nat) :
    (∃ rules, (readItems false index items).outcome = .ok rules ∧
      Loads items rules (readItems false index items).warnings) ∨
    ∃ e, (readItems false index items).outcome = .error e ∧ ∃ d ∈ items, IsFaulty d e := by
  induction items generalizing index with
  | nil => exact .inl ⟨[], rfl, .nil⟩
  | cons d items ih =>
    obtain ⟨hd, hitems⟩ := List.forall_mem_cons.mp hitems
    have hfault : ∀ e, (∃ d ∈ items, IsFaulty d e) → ∃ d' ∈ d :: items, IsFaulty d' e :=
      fun e ⟨d', hd', hfaulty⟩ => ⟨d', List.mem_cons_of_mem d hd', hfaulty⟩
    obtain ⟨r, hr⟩ | ⟨e, he, hskip⟩ | ⟨e, he, hskip, hfaulty⟩ := gives_cases hd
    · rw [readItems_of_ok hr]
      obtain ⟨rules, hrules, hloads⟩ | ⟨e, he, hfaulty⟩ := ih hitems (index + 1)
      · refine .inl ⟨r :: rules, by simp [hrules], ?_⟩
        rw [Reported.warnings_bind hrules, Reported.warnings_pure, List.append_nil]
        exact hloads.read hr
      · exact .inr ⟨e, by simp [he], hfault e hfaulty⟩
    · rw [readItems_of_isSkippable he hskip]
      obtain ⟨rules, hrules, hloads⟩ | ⟨e', he', hfaulty⟩ := ih hitems (index + 1)
      · refine .inl ⟨rules, by simp [hrules], ?_⟩
        rw [Reported.warnings_bind (Reported.outcome_warn _), Reported.warnings_warn]
        exact hloads.skip he hskip
      · exact .inr ⟨e', by simp [he'], hfault e' hfaulty⟩
    · rw [readItems_of_not_isSkippable he hskip]
      exact .inr ⟨e, rfl, d, List.mem_cons_self, hfaulty⟩

end Tree

/-! ### Collecting the rules -/

namespace RuleSet

/-- Rules collected leniently: each rule that does not fit is left out with a warning. -/
structure Collected.Extends (c next : Collected K) (rules : List (Rule K))
    (warnings : List (Warning K)) : Prop where
  exists_kept : ∃ kept, kept.Sublist rules ∧ next.rules = c.rules ++ kept ∧
    warnings.length + kept.length = rules.length
  nodup : (next.rules.map (·.name)).Nodup
  skips : ∀ w ∈ warnings, Tree.IsSkip w

theorem Collected.Extends.add {c c' next : Collected K} {r : Rule K} {rules : List (Rule K)}
    {warnings : List (Warning K)} (hadd : c.add r = .ok c') (h : c'.Extends next rules warnings) :
    c.Extends next (r :: rules) warnings := by
  obtain ⟨⟨kept, hkept, hrules, hlength⟩, hnodup, hskips⟩ := h
  refine ⟨⟨r :: kept, hkept.cons_cons r, ?_, congrArg (· + 1) hlength⟩, hnodup, hskips⟩
  rw [hrules, (rules_of_add hadd).1, List.append_assoc, List.singleton_append]

theorem Collected.Extends.skip {c next : Collected K} {r : Rule K} {rules : List (Rule K)}
    {warnings : List (Warning K)} {e : Error K} (he : Tree.isSkippable e = true)
    (h : c.Extends next rules warnings) :
    c.Extends next (r :: rules) (.skippedRule e :: warnings) := by
  obtain ⟨⟨kept, hkept, hrules, hlength⟩, hnodup, hskips⟩ := h
  refine ⟨⟨kept, hkept.cons r, hrules, ?_⟩, hnodup, List.forall_mem_cons.mpr ⟨⟨e, rfl, he⟩, hskips⟩⟩
  rw [List.length_cons, List.length_cons, ← hlength]
  omega

/-- Rules are collected leniently to the end. -/
theorem Collected.exists_run {c : Collected K} (hc : (c.rules.map (·.name)).Nodup)
    (rules : List (Rule K)) : ∃ next, (run false c rules).outcome = .ok next ∧
      c.Extends next rules (run false c rules).warnings := by
  induction rules generalizing c with
  | nil => exact ⟨c, rfl, ⟨[], .slnil, (List.append_nil _).symm, rfl⟩, hc, List.forall_mem_nil _⟩
  | cons r rules ih =>
    rw [run]
    cases hadd : c.add r with
    | ok c' =>
      obtain ⟨next, hnext, h⟩ := ih (nodup_of_add hadd hc)
      exact ⟨next, hnext, h.add hadd⟩
    | error e =>
      obtain ⟨next, hnext, h⟩ := ih hc
      cases e with
      | definition site f =>
        refine ⟨next, by simp [hnext], ?_⟩
        rw [Reported.warnings_bind (Reported.outcome_warn _), Reported.warnings_warn]
        exact h.skip rfl
      | _ => exact (c.failsOnly_add r _ hadd).elim

/-- Collecting rules leniently gives a set of some of them, with a warning for each other. -/
theorem exists_collect (rules : List (Rule K)) : ∃ s, (collect rules false).outcome = .ok s ∧
    s.rules.Sublist rules ∧
    (collect rules false).warnings.length + s.rules.length = rules.length ∧
    ∀ w ∈ (collect rules false).warnings, Tree.IsSkip w := by
  obtain ⟨next, hnext, ⟨kept, hkept, hrules, hlength⟩, hnodup, hskips⟩ :=
    Collected.exists_run (c := ⟨[], []⟩) List.nodup_nil rules
  obtain rfl : next.rules = kept := hrules
  have hwarnings : (collect rules false).warnings =
      (Collected.run false ⟨[], []⟩ rules).warnings :=
    (Reported.warnings_bind hnext _).trans (List.append_nil _)
  rw [hwarnings]
  refine ⟨⟨next.rules, hnodup⟩, ?_, hkept, hlength, hskips⟩
  rw [collect, Reported.outcome_bind, hnext]
  exact dif_pos hnodup

end RuleSet

namespace Tree

/-! ### Rule sets of items -/

/-- **Lenient loading.** A list of named items gives a rule set, with a warning for each item that
gives no rule of it; a rule with a malformed expression is one of those. Only an expression with an
integer out of range, or with a mapping of several keys that cannot be sorted, ends the loading.

Here every integer can be written in a message. Where the digits of a number's text are limited, as
to 4300 by an interpreter, a message that has to show a longer integer ends the loading as well. -/
theorem ofItems_loads_or_isFaulty {items : List (Datum K)}
    (hitems : ∀ d ∈ items, ∃ name tree, IsItem d name tree) :
    (∃ s, (ofItems items false).outcome = .ok s ∧
      Loads items s.rules (ofItems items false).warnings) ∨
    ∃ e, (ofItems items false).outcome = .error e ∧ ∃ d ∈ items, IsFaulty d e := by
  obtain ⟨rules, hrules, hloads⟩ | ⟨e, he, hfaulty⟩ := loads_or_isFaulty hitems 0
  · obtain ⟨s, hs, hkept, hlength, hskips⟩ := RuleSet.exists_collect rules
    refine .inl ⟨s, ?_, ?_⟩
    · rw [ofItems, Reported.outcome_bind, hrules]
      exact hs
    · rw [ofItems, Reported.warnings_bind hrules]
      exact hloads.select hkept.subset hlength hskips
  · refine .inr ⟨e, ?_, hfaulty⟩
    rw [ofItems, Reported.outcome_bind, he]
    rfl

/-- A named item with an expression. -/
def namedItem (name : String) (tree : Datum K) : Datum K :=
  .mapping [(.text "name", .text name), (.text "expr", tree)]

omit [Scalar K] in
theorem isItem_namedItem {name : String} (tree : Datum K) (h : ¬ Text.Blank name) :
    IsItem (namedItem name tree) name tree :=
  ⟨⟨_, rfl, rfl, rfl⟩, h⟩

/-- The expression of a rule that bounds `x` from below. -/
def boundTree (n : Int) : Datum K :=
  .mapping [(.text ">=", .list [.text "x", .int n])]

/-- Two items, of which the second one has a name for an expression. -/
def mixedItems : List (Datum Float) :=
  [namedItem "a" (boundTree 1), namedItem "b" (.text "x")]

/-- The first of the items is read, the second one is skipped. -/
theorem ofItems_skips_malformed :
    (∀ d ∈ mixedItems, ∃ name tree, IsItem d name tree) ∧
    ∃ s, (ofItems mixedItems false).outcome = .ok s ∧ s.names = ["a"] ∧
      Loads mixedItems s.rules (ofItems mixedItems false).warnings := by
  have hitems : ∀ d ∈ mixedItems, ∃ name tree, IsItem d name tree := by
    refine List.forall_mem_cons.mpr ⟨?_, List.forall_mem_singleton.mpr ?_⟩
    · exact ⟨_, _, isItem_namedItem _ (by decide)⟩
    · exact ⟨_, _, isItem_namedItem _ (by decide)⟩
  have hnames : (ofItems mixedItems false).outcome.toOption.any (·.names == ["a"]) = true := by
    decide +kernel
  obtain ⟨s, hs, hnames⟩ := exists_of_any_toOption hnames
  refine ⟨hitems, s, hs, beq_iff_eq.mp hnames, ?_⟩
  obtain ⟨s', hs', hloads⟩ | ⟨e, he, -⟩ := ofItems_loads_or_isFaulty hitems
  · obtain rfl := Except.ok.inj (hs.symm.trans hs')
    exact hloads
  · cases hs.symm.trans he

/-- An item whose expression has an integer out of range. -/
def hugeItem : Datum Float :=
  namedItem "r" (boundTree (10 ^ 400))

/-- A rule with an integer out of range is not skipped: it ends the loading. -/
theorem ofItems_huge_integer :
    (∀ d ∈ [hugeItem], ∃ name tree, IsItem d name tree) ∧
    (ofItems [hugeItem] false).outcome = .error (.overflow .integer) := by
  refine ⟨List.forall_mem_singleton.mpr ⟨_, _, isItem_namedItem _ (by decide)⟩, ?_⟩
  exact Reported.outcome_of_overflows (by decide +kernel)

end Tree

end RuleAudit
