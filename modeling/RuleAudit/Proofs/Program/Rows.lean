import Mathlib.Algebra.Order.BigOperators.Group.List
import Mathlib.Algebra.Order.Ring.Abs
import RuleAudit.Proofs.Program.Vocabulary

/-!
# Rows say what clauses say

At a point whose values of the decision variables read as a valuation, the rows of a clause hold
when the clause is true with a margin. Rows that hang on a selector say this while the selector is
on; while it is off they say nothing, because their relief is at least the largest distance
between the two sides of the clause in the box (`LinearClause.abs_sub_le_relief`). Both are kept
together in `Guards`, which goes from clauses to terms and to lists of terms.
-/

namespace RuleAudit

/-! ### Sums -/

/-- A sum of zeros and one one. -/
theorem sum_map_ite_eq {α : Type} [DecidableEq α] (a : α) {l : List α} (h : l.Nodup) :
    (l.map fun b => if a = b then (1 : Rat) else 0).sum = if a ∈ l then 1 else 0 := by
  induction l with
  | nil => rfl
  | cons b l ih =>
    obtain ⟨hb, hl⟩ := List.nodup_cons.mp h
    rw [List.map_cons, List.sum_cons, ih hl]
    by_cases hab : a = b
    · subst hab
      rw [if_pos rfl, if_neg hb, if_pos List.mem_cons_self, add_zero]
    · rw [if_neg hab, zero_add]
      simp [List.mem_cons, hab]

/-- Zeros and ones that add up to one are zeros and one one. -/
theorem exists_of_sum_eq_one {α : Type} [DecidableEq α] {l : List α} {f : α → Rat}
    (h : ∀ a ∈ l, f a = 0 ∨ f a = 1) (hsum : (l.map f).sum = 1) :
    ∃ a ∈ l, ∀ b ∈ l, f b = if a = b then 1 else 0 := by
  induction l with
  | nil => exact absurd hsum zero_ne_one
  | cons a l ih =>
    rw [List.map_cons, List.sum_cons] at hsum
    have hl : ∀ b ∈ l, f b = 0 ∨ f b = 1 := fun b hb => h b (List.mem_cons_of_mem a hb)
    rcases h a List.mem_cons_self with ha | ha
    · obtain ⟨c, hc, hval⟩ := ih hl (by rwa [ha, zero_add] at hsum)
      refine ⟨c, List.mem_cons_of_mem a hc, List.forall_mem_cons.mpr ⟨?_, hval⟩⟩
      have hca : c ≠ a := by
        rintro rfl
        have hone := hval c hc
        rw [if_pos rfl, ha] at hone
        exact zero_ne_one hone
      rw [ha, if_neg hca]
    · have hnonneg : ∀ y ∈ l.map f, 0 ≤ y := by
        intro y hy
        obtain ⟨b, hb, rfl⟩ := List.mem_map.mp hy
        rcases hl b hb with hb | hb <;> rw [hb]
        exact zero_le_one
      have hrest : (l.map f).sum = 0 := by linarith
      refine ⟨a, List.mem_cons_self, List.forall_mem_cons.mpr ⟨by rw [ha, if_pos rfl], ?_⟩⟩
      intro b hb
      have hb0 : f b = 0 :=
        List.all_zero_of_le_zero_le_of_sum_eq_zero hnonneg hrest (List.mem_map_of_mem hb)
      have hab : a ≠ b := by
        rintro rfl
        exact one_ne_zero (ha.symm.trans hb0)
      rw [hb0, if_neg hab]

/-- A weighted sum of values in a box. -/
theorem abs_sum_le {terms : List (String × Rat)} {f bound : String → Rat}
    (h : ∀ t ∈ terms, |f t.1| ≤ bound t.1) :
    |(terms.map fun t => t.2 * f t.1).sum| ≤ (terms.map fun t => |t.2| * bound t.1).sum := by
  induction terms with
  | nil => exact le_of_eq abs_zero
  | cons t terms ih =>
    have hterm : |t.2 * f t.1| ≤ |t.2| * bound t.1 := by
      rw [abs_mul]
      exact mul_le_mul_of_nonneg_left (h t List.mem_cons_self) (abs_nonneg t.2)
    have hrest := ih fun s hs => h s (List.mem_cons_of_mem t hs)
    rw [List.map_cons, List.sum_cons, List.map_cons, List.sum_cons]
    exact (abs_add_le _ _).trans (add_le_add hterm hrest)

/-! ### Rows at a point -/

/-- Compare the two sides of a row. -/
def Sense.Holds : Sense → Rat → Rat → Prop
  | le, lhs, rhs => lhs ≤ rhs
  | ge, lhs, rhs => rhs ≤ lhs
  | eq, lhs, rhs => lhs = rhs

instance (s : Sense) (lhs rhs : Rat) : Decidable (s.Holds lhs rhs) :=
  match s with
  | .le => inferInstanceAs (Decidable (lhs ≤ rhs))
  | .ge => inferInstanceAs (Decidable (rhs ≤ lhs))
  | .eq => inferInstanceAs (Decidable (lhs = rhs))

namespace Row

variable (r : Row Rat) (x : String → Rat)

/-- The value of the left side of a row, its switch included. -/
def lhs : Rat :=
  (r.coefs.map fun t => t.2 * x t.1).sum

/-- A row holds at a point. -/
def Holds : Prop :=
  r.sense.Holds (r.lhs x) r.rhs

instance : Decidable (r.Holds x) :=
  inferInstanceAs (Decidable (r.sense.Holds (r.lhs x) r.rhs))

end Row

namespace Row

variable {terms : List (String × Rat)} {sense : Sense} {bound relief : Rat} {label s : String}
  {x : String → Rat}

theorem holds_plain : Holds ⟨terms, sense, bound, label, none⟩ x ↔
    sense.Holds (terms.map fun t => t.2 * x t.1).sum bound :=
  Iff.rfl

theorem holds_switched : Holds ⟨terms, sense, bound, label, some ⟨s, relief⟩⟩ x ↔
    sense.Holds ((terms.map fun t => t.2 * x t.1).sum + relief * x s) (bound + relief) := by
  simp only [Holds, lhs, coefs, List.map_append, List.sum_append, List.map_singleton,
    List.sum_singleton]
  rfl

end Row

/-- Rows say that something is true while their selector is on, and nothing while it is off. Rows
without a selector always say it. -/
structure Guards (selector : Option String) (x : String → Rat) (rows : List (Row Rat))
    (truth : Bool) : Prop where
  on : (∀ s ∈ selector, x s = 1) → ((∀ row ∈ rows, row.Holds x) ↔ truth = true)
  off : (∃ s ∈ selector, x s = 0) → ∀ row ∈ rows, row.Holds x

namespace Guards

variable {selector : Option String} {x : String → Rat}

theorem nil : Guards selector x [] true :=
  ⟨fun _ => by simp, fun _ => by simp⟩

theorem append {rows rows' : List (Row Rat)} {truth truth' : Bool}
    (h : Guards selector x rows truth) (h' : Guards selector x rows' truth') :
    Guards selector x (rows ++ rows') (truth && truth') := by
  constructor
  · intro hon
    rw [List.forall_mem_append, h.on hon, h'.on hon, Bool.and_eq_true]
  · intro hoff
    rw [List.forall_mem_append]
    exact ⟨h.off hoff, h'.off hoff⟩

/-- A row without a selector. -/
theorem plain {terms : List (String × Rat)} {sense : Sense} {total bound : Rat} {truth : Bool}
    (htotal : (terms.map fun t => t.2 * x t.1).sum = total)
    (h : truth = true ↔ sense.Holds total bound) (label : String) :
    Guards none x [⟨terms, sense, bound, label, none⟩] truth := by
  constructor
  · intro _
    rw [List.forall_mem_singleton, Row.holds_plain, htotal, ← h]
  · rintro ⟨s, ⟨⟩, -⟩

/-- A row says nothing while a relief that makes up for any excess is added to its bound. -/
theorem below {terms : List (String × Rat)} {total bound relief : Rat} {s : String}
    (htotal : (terms.map fun t => t.2 * x t.1).sum = total) (h : total - bound ≤ relief)
    (label : String) : Guards (some s) x [⟨terms, .le, bound, label, some ⟨s, relief⟩⟩]
      (decide (total ≤ bound)) := by
  constructor
  · intro hon
    have hs : x s = 1 := hon s rfl
    rw [List.forall_mem_singleton, Row.holds_switched, htotal, hs, mul_one, decide_eq_true_eq]
    exact add_le_add_iff_right relief
  · rintro ⟨_, ⟨⟩, hs⟩
    rw [List.forall_mem_singleton, Row.holds_switched, htotal, hs, mul_zero, add_zero]
    exact sub_le_iff_le_add'.mp h

/-- A row says nothing while a relief that makes up for any lack is taken off its bound. -/
theorem above {terms : List (String × Rat)} {total bound relief : Rat} {s : String}
    (htotal : (terms.map fun t => t.2 * x t.1).sum = total) (h : bound - total ≤ relief)
    (label : String) : Guards (some s) x [⟨terms, .ge, bound, label, some ⟨s, -relief⟩⟩]
      (decide (bound ≤ total)) := by
  constructor
  · intro hon
    have hs : x s = 1 := hon s rfl
    rw [List.forall_mem_singleton, Row.holds_switched, htotal, hs, mul_one, decide_eq_true_eq]
    exact add_le_add_iff_right (-relief)
  · rintro ⟨_, ⟨⟩, hs⟩
    rw [List.forall_mem_singleton, Row.holds_switched, htotal, hs, mul_zero, add_zero]
    have hbound : bound + -relief ≤ total := by linarith
    exact hbound

end Guards

/-! ### Points as valuations -/

/-- The numeric variables lie in the box that the settings draw. -/
def Valuation.InBox (v : Valuation) (settings : Settings Rat) (vars : List String) : Prop :=
  ∀ n ∈ vars, |v.number n| ≤ settings.bound n

instance lawfulBEqLabel : LawfulBEq (Option String) := inferInstance

/-- The label of a variable, if a clause mentions it; none stands for all others. -/
def Usage.choice (u : Usage) (v : Valuation) (n : String) : Option String :=
  if v.label n ∈ u.options n then v.label n else none

theorem Usage.choice_mem_options (u : Usage) (v : Valuation) (n : String) :
    u.choice v n ∈ u.options n := by
  rw [choice]
  split
  · assumption
  · exact u.none_mem_options n

theorem Usage.choice_congr {u : Usage} {v w : Valuation} {n : String}
    (h : v.label n = u.choice w n) : u.choice v n = u.choice w n := by
  have hmem : v.label n ∈ u.options n := h ▸ u.choice_mem_options w n
  exact (if_pos hmem).trans h

theorem Usage.choice_eq_some_iff {u : Usage} {v : Valuation} {n l : String}
    (hl : l ∈ labelsOf u.labels n) : u.choice v n = some l ↔ v.label n = some l := by
  rw [choice]
  split
  · rfl
  · next hmem =>
    refine iff_of_false (by simp) fun hlabel => hmem ?_
    rw [hlabel]
    exact some_mem_options.mpr hl

/-- The decision variables have the values that belong to a valuation. -/
structure Reads (u : Usage) (x : String → Rat) (v : Valuation) : Prop where
  number : ∀ n ∈ u.ofKind .numeric, x (numericName n) = v.number n
  label : ∀ n ∈ u.ofKind .categorical, ∀ l ∈ u.options n,
    x (indicatorName n l) = if u.choice v n = l then 1 else 0

/-! ### Linear clauses -/

namespace LinearClause

variable {c : LinearClause Rat} {settings : Settings Rat} {v : Valuation}

/-- With a margin, a clause compares its left side with its right side moved by the margin. -/
theorem eval_margin_eq : (Clause.linear c).eval (.margin settings.epsilon.value) v =
    match sense c.relation with
      | .le => decide (c.sumAt v ≤ c.tightRhs settings)
      | .ge => decide (c.tightRhs settings ≤ c.sumAt v)
      | .eq => decide (c.sumAt v ≤ c.tightRhs settings) &&
        decide (c.tightRhs settings ≤ c.sumAt v) := by
  rw [Clause.eval, tightRhs]
  cases c.relation <;> simp only [Comparison.margin, sense]
  rw [← Bool.decide_and, decide_eq_decide]
  exact le_antisymm_iff

theorem relief_eq : c.relief settings =
    (c.terms.map fun t => |t.2| * settings.bound t.1).sum + |c.rhs| + settings.epsilon.value := by
  -- the reach is added up from the left, so the induction leaves the start free
  have hfold (terms : List (String × Rat)) (start : Rat) :
      terms.foldl (fun sum t => sum + |t.2| * settings.bound t.1) start =
        start + (terms.map fun t => |t.2| * settings.bound t.1).sum := by
    induction terms generalizing start with
    | nil => exact (add_zero start).symm
    | cons t terms ih =>
      rw [List.foldl_cons, ih, List.map_cons, List.sum_cons]
      exact add_assoc _ _ _
  have hreach := (hfold c.terms 0).trans (zero_add _)
  rw [← hreach, relief]
  simp only [Rational.abs_eq]

/-- In the box, the two sides of a clause are no further apart than its relief. -/
theorem abs_sub_le_relief (h : v.InBox settings c.vars) :
    |c.sumAt v - c.tightRhs settings| ≤ c.relief settings := by
  have hsum : |c.sumAt v| ≤ (c.terms.map fun t => |t.2| * settings.bound t.1).sum :=
    abs_sum_le fun t ht => h t.1 (List.mem_map_of_mem ht)
  have heps : 0 < settings.epsilon.value := settings.epsilon.pos
  -- only strict relations move the right side, by the margin
  have hrhs : |c.tightRhs settings| ≤ |c.rhs| + settings.epsilon.value := by
    rw [tightRhs]
    cases c.relation
    case lt => exact (abs_sub _ _).trans_eq (by rw [abs_of_pos heps])
    case gt => exact (abs_add_le _ _).trans_eq (by rw [abs_of_pos heps])
    all_goals exact le_add_of_nonneg_right heps.le
  rw [relief_eq]
  calc |c.sumAt v - c.tightRhs settings|
      ≤ |c.sumAt v| + |c.tightRhs settings| := abs_sub _ _
    _ ≤ _ := by linarith

/-- A clause over the names of its decision variables. -/
def columns (c : LinearClause Rat) : List (String × Rat) :=
  c.terms.map fun t => (numericName t.1, t.2)

variable {u : Usage} {x : String → Rat}

theorem sum_columns (hc : c.vars ⊆ u.ofKind .numeric) (h : Reads u x v) :
    (c.columns.map fun t => t.2 * x t.1).sum = c.sumAt v := by
  rw [columns, List.map_map, sumAt]
  refine congrArg List.sum (List.map_congr_left fun t ht => ?_)
  rw [Function.comp_apply, h.number t.1 (hc (List.mem_map_of_mem ht))]

/-- The rows of a clause can be written when its variables are numeric, and they guard it. -/
theorem exists_rows {clauses : List (Clause Rat)} (hu : u.Covers clauses) (settings : Settings Rat)
    (hc : c.vars ⊆ u.ofKind .numeric) (selector : Option String) (label : String) :
    ∃ rows, c.rows (u.vocabulary settings) settings selector label = .ok rows ∧
      ∀ x v, Reads u x v → v.InBox settings (u.ofKind .numeric) →
        Guards selector x rows ((Clause.linear c).eval (.margin settings.epsilon.value) v) := by
  have hcolumns : (c.terms.mapM fun t => do
      return ((← (u.vocabulary settings).numericVar t.1).name, t.2)) = Except.ok c.columns := by
    refine Outcome.mapM_eq_map fun t ht => ?_
    have hn : t.1 ∈ u.ofKind .numeric := hc (List.mem_map_of_mem (f := (·.1)) ht)
    rw [hu.numericVar_eq hn]
    rfl
  rw [rows, hcolumns, Outcome.ok_bind]
  cases selector with
  | none =>
    refine ⟨_, rfl, fun x v hx _ => .plain (sum_columns hc hx) ?_ label⟩
    rw [eval_margin_eq]
    cases sense c.relation with
    | le => exact decide_eq_true_iff
    | ge => exact decide_eq_true_iff
    | eq =>
      rw [← Bool.decide_and, decide_eq_true_eq]
      exact le_antisymm_iff.symm
  | some s =>
    refine ⟨_, rfl, fun x v hx hbox => ?_⟩
    have hsum := sum_columns hc hx
    obtain ⟨hlack, hexcess⟩ := abs_le.mp (abs_sub_le_relief (c := c) fun n hn => hbox n (hc hn))
    have hlack' : c.tightRhs settings - c.sumAt v ≤ c.relief settings := by linarith
    rw [eval_margin_eq]
    cases sense c.relation with
    | le => exact .below hsum hexcess label
    | ge => exact .above hsum hlack' label
    -- an equality has a row for each side
    | eq => exact (Guards.below hsum hexcess label).append (.above hsum hlack' label)

end LinearClause

/-! ### Membership clauses -/

namespace MembershipClause

variable {c : MembershipClause} {u : Usage} {clauses : List (Clause Rat)}

/-- A clause over the names of its indicators. -/
def columns (c : MembershipClause) : List (String × Rat) :=
  c.labels.map fun l => (indicatorName c.subject (some l), 1)

/-- One of the indicators is on exactly when the clause lists the label of its variable. -/
theorem sum_columns {x : String → Rat} {v : Valuation} (hu : u.Covers clauses)
    (hc : ∀ l ∈ c.labels, l ∈ labelsOf u.labels c.subject) (h : Reads u x v) :
    (c.columns.map fun t => t.2 * x t.1).sum = if c.lists v then 1 else 0 := by
  have hnodup : (c.labels.map some).Nodup := by
    have hlabels : c.labels.Nodup := c.ascending.imp fun hlt => by
      rintro rfl
      exact String.lt_irrefl _ hlt
    exact hlabels.map (Option.some_injective _)
  have hmap : (c.columns.map fun t => t.2 * x t.1) =
      (c.labels.map some).map fun l => if v.label c.subject = l then (1 : Rat) else 0 := by
    rw [columns, List.map_map, List.map_map]
    refine List.map_congr_left fun l hl => ?_
    have hlabel := hc l hl
    rw [Function.comp_apply, Function.comp_apply, one_mul,
      h.label _ (hu.mem_ofKind_of_mem_labelsOf hlabel) _ (Usage.some_mem_options.mpr hlabel)]
    simp only [Usage.choice_eq_some_iff hlabel]
  rw [hmap, sum_map_ite_eq _ hnodup, lists]
  cases v.label c.subject <;> simp

/-- The row of a clause can be written when its labels are known, and it guards the clause. -/
theorem exists_rows (hu : u.Covers clauses) (settings : Settings Rat) (hne : c.labels ≠ [])
    (hc : ∀ l ∈ c.labels, l ∈ labelsOf u.labels c.subject) (selector : Option String)
    (label : String) :
    ∃ rows, c.rows (u.vocabulary settings) selector label = .ok rows ∧
      ∀ (cmp : Comparison) x v, Reads u x v →
        Guards selector x rows ((Clause.membership c).eval cmp v) := by
  obtain ⟨first, hfirst⟩ := List.exists_mem_of_ne_nil _ hne
  have hcolumns : (c.labels.mapM fun l => do
      return ((← Vocabulary.labelVar (K := Rat) ((u.options c.subject).map fun l =>
        (l, Vocabulary.indicator c.subject l)) l).name, (1 : Rat))) = Except.ok c.columns := by
    refine Outcome.mapM_eq_map fun l hl => ?_
    rw [Usage.labelVar_eq (hc l hl)]
    rfl
  have hlabelVars : (u.vocabulary settings).labelVars c.subject = .ok _ :=
    hu.labelVars_eq (hu.mem_ofKind_of_mem_labelsOf (hc first hfirst))
  have hlength : ¬ c.columns.isEmpty = true := by
    rw [columns, List.isEmpty_map, List.isEmpty_iff]
    exact hne
  rw [rows, hlabelVars, Outcome.ok_bind, hcolumns, Outcome.ok_bind, if_neg hlength]
  refine ⟨_, rfl, fun cmp x v hx => ?_⟩
  have hsum := sum_columns hu hc hx
  -- one indicator at most is on, so either relief makes up for the row
  have hcount : (if c.lists v then (1 : Rat) else 0) - 0 ≤ ((c.columns.length : Nat) : Rat) := by
    have hpos : 1 ≤ c.columns.length := by
      rw [columns, List.length_map]
      exact List.length_pos_iff.mpr hne
    have hone : (1 : Rat) ≤ ((c.columns.length : Nat) : Rat) := by exact_mod_cast hpos
    split <;> linarith
  have hunit : 1 - (if c.lists v then (1 : Rat) else 0) ≤ 1 := by
    split <;> simp
  have hnone : (c.lists v != true) = decide ((if c.lists v then (1 : Rat) else 0) ≤ 0) := by
    cases c.lists v <;> simp
  have hsome : (c.lists v != false) = decide (1 ≤ if c.lists v then (1 : Rat) else 0) := by
    cases c.lists v <;> simp
  rw [Clause.eval]
  cases c.negated with
  | true =>
    rw [if_pos rfl, hnone]
    cases selector with
    | none => exact .plain hsum (by rw [decide_eq_true_eq]; rfl) label
    | some s => exact .below hsum hcount label
  | false =>
    rw [if_neg Bool.false_ne_true, hsome]
    cases selector with
    | none => exact .plain hsum (by rw [decide_eq_true_eq]; rfl) label
    | some s => exact .above hsum hunit label

end MembershipClause

/-! ### Terms -/

section Terms

variable {u : Usage} {clauses : List (Clause Rat)} (hu : u.Covers clauses)
  (settings : Settings Rat)

/-- A clause can be encoded: its variables are in use with their kinds, and its labels are known. -/
def Usage.Knows (u : Usage) : Clause Rat → Prop
  | .linear c => c.vars ⊆ u.ofKind .numeric
  | .membership c => c.labels ≠ [] ∧ ∀ l ∈ c.labels, l ∈ labelsOf u.labels c.subject
  | .foreign _ => False

include hu

theorem Clause.exists_rows {c : Clause Rat} (hc : u.Knows c)
    (rule : String) (index : Nat) (selector : Option String) :
    ∃ rows, c.rows rule index (u.vocabulary settings) settings selector = .ok rows ∧
      ∀ x v, Reads u x v → v.InBox settings (u.ofKind .numeric) →
        Guards selector x rows (c.eval (.margin settings.epsilon.value) v) := by
  cases c with
  | linear c => exact c.exists_rows hu settings hc selector _
  | membership c =>
    obtain ⟨rows, hrows, hguards⟩ :=
      c.exists_rows hu settings hc.1 hc.2 selector
        (rule ++ "[" ++ toString index ++ "]: " ++ (Clause.membership c : Clause Rat).toText)
    exact ⟨rows, hrows, fun x v hx _ => hguards _ x v hx⟩
  | foreign d => cases hc

/-- The rows of a term guard the term. -/
theorem Encoding.exists_termRows {term : Term Rat}
    (hterm : ∀ c ∈ term, u.Knows c) (rule : String) (index : Nat) (selector : Option String) :
    ∃ rows, termRows rule (u.vocabulary settings) settings selector index term = .ok rows ∧
      ∀ x v, Reads u x v → v.InBox settings (u.ofKind .numeric) →
        Guards selector x rows (term.all (Clause.eval (.margin settings.epsilon.value) v)) := by
  induction term generalizing index with
  | nil => exact ⟨[], rfl, fun x v _ _ => .nil⟩
  | cons c term ih =>
    obtain ⟨rows, hrows, hguards⟩ :=
      c.exists_rows hu settings (hterm c List.mem_cons_self) rule index selector
    obtain ⟨rest, hrest, hguards'⟩ :=
      ih (fun d hd => hterm d (List.mem_cons_of_mem c hd)) (index + 1)
    refine ⟨rows ++ rest, by rw [termRows, hrows, Outcome.ok_bind, hrest]; rfl, ?_⟩
    exact fun x v hx hbox => (hguards x v hx hbox).append (hguards' x v hx hbox)

/-- The rows of terms with a selector each hold when every term whose selector is on is true. -/
theorem Encoding.exists_termsRows {terms : List (String × Term Rat)}
    (hterms : ∀ t ∈ terms, ∀ c ∈ t.2, u.Knows c) (rule : String) (index : Nat) :
    ∃ rows, termsRows rule (u.vocabulary settings) settings index terms = .ok rows ∧
      ∀ x v, Reads u x v → v.InBox settings (u.ofKind .numeric) →
        (∀ t ∈ terms, x t.1 = 0 ∨ x t.1 = 1) →
        ((∀ row ∈ rows, row.Holds x) ↔ ∀ t ∈ terms, x t.1 = 1 →
          t.2.all (Clause.eval (.margin settings.epsilon.value) v) = true) := by
  induction terms generalizing index with
  | nil => exact ⟨[], rfl, fun x v _ _ _ => by simp⟩
  | cons t terms ih =>
    obtain ⟨rows, hrows, hguards⟩ :=
      exists_termRows hu settings (hterms t List.mem_cons_self) rule index (some t.1)
    obtain ⟨rest, hrest, hholds⟩ :=
      ih (fun s hs => hterms s (List.mem_cons_of_mem t hs)) (index + t.2.length)
    refine ⟨rows ++ rest, by rw [termsRows, hrows, Outcome.ok_bind, hrest]; rfl, ?_⟩
    intro x v hx hbox hbinary
    rw [List.forall_mem_append, List.forall_mem_cons,
      hholds x v hx hbox fun s hs => hbinary s (List.mem_cons_of_mem t hs)]
    refine and_congr_left fun _ => ?_
    -- a selector that is off asks nothing of its term
    rcases hbinary t List.mem_cons_self with hoff | hon
    · refine iff_of_true ((hguards x v hx hbox).off ⟨t.1, rfl, hoff⟩) fun hone => ?_
      rw [hoff] at hone
      exact absurd hone zero_ne_one
    · rw [(hguards x v hx hbox).on (by rintro _ ⟨⟩; exact hon)]
      exact ⟨fun htrue _ => htrue, fun himp => himp hon⟩

end Terms

end RuleAudit
