import Mathlib.Tactic.Choose
import RuleAudit.Program.Decode
import RuleAudit.Proofs.Program.Rows

/-!
# Feasible points and what is read off them

A point is feasible when it gives every decision variable a value in its range and meets every
row. A valuation is read off a point at which it belongs: the indicators of a variable are all
zero but one, and the label of this one is chosen (`Program.chosen_eq`).
-/

namespace RuleAudit

/-! ### Feasible points -/

/-- The value of a decision variable; zero when the point has none. -/
def pointAt (point : List (String × Rat)) (name : String) : Rat :=
  (Assoc.get? name point).getD 0

/-- A value is in the range of a decision variable. -/
def DecisionVar.Admits (d : DecisionVar Rat) (y : Rat) : Prop :=
  d.lower ≤ y ∧ y ≤ d.upper ∧ (d.domain = .binary → y = 0 ∨ y = 1)

instance (d : DecisionVar Rat) (y : Rat) : Decidable (d.Admits y) :=
  inferInstanceAs (Decidable (d.lower ≤ y ∧ y ≤ d.upper ∧ (d.domain = .binary → y = 0 ∨ y = 1)))

/-- Every decision variable has a value in its range, and all rows hold. -/
structure Program.Feasible (p : Program Rat) (point : List (String × Rat)) : Prop where
  admits : ∀ d ∈ p.vars, ∃ y, Assoc.get? d.name point = some y ∧ d.Admits y
  rows : ∀ row ∈ p.rows, row.Holds (pointAt point)

instance (p : Program Rat) (point : List (String × Rat)) : Decidable (p.Feasible point) :=
  decidable_of_iff ((∀ d ∈ p.vars, (Assoc.get? d.name point).any fun y => decide (d.Admits y)) ∧
      ∀ row ∈ p.rows, row.Holds (pointAt point)) <| by
    simp only [Option.any_eq_true, decide_eq_true_eq]
    exact ⟨fun h => ⟨h.1, h.2⟩, fun h => ⟨h.admits, h.rows⟩⟩

theorem pointAt_eq {point : List (String × Rat)} {name : String} {y : Rat}
    (h : Assoc.get? name point = some y) : pointAt point name = y := by
  rw [pointAt, h, Option.getD_some]

theorem get?_eq_pointAt {point : List (String × Rat)} {name : String}
    (h : name ∈ point.map (·.1)) : Assoc.get? name point = some (pointAt point name) := by
  rw [pointAt]
  cases hget : Assoc.get? name point with
  | some y => rfl
  | none => exact absurd h (Assoc.get?_eq_none.mp hget)

theorem Program.Feasible.get? {p : Program Rat} {point : List (String × Rat)}
    (h : p.Feasible point) {d : DecisionVar Rat} (hd : d ∈ p.vars) :
    Assoc.get? d.name point = some (pointAt point d.name) ∧ d.Admits (pointAt point d.name) := by
  obtain ⟨y, hy, hadmits⟩ := h.admits d hd
  rw [pointAt_eq hy]
  exact ⟨hy, hadmits⟩

/-! ### Readings -/

namespace Valuation

/-- The values of a program's variables: the numbers first; a label without an indicator is none. -/
def readings (v : Valuation) (p : Program Rat) : List (String × Reading Rat) :=
  (p.numeric.map fun e => (e.1, .number (v.number e.1))) ++
    p.indicators.map fun e =>
      (e.1, .label (if v.label e.1 ∈ e.2.map (·.1) then v.label e.1 else none))

/-- Values of variables as a valuation. -/
def ofReadings (a : List (String × Reading Rat)) : Valuation where
  number n := match Assoc.get? n a with
    | some (.number x) => x
    | _ => 0
  label n := match Assoc.get? n a with
    | some (.label l) => l
    | _ => none

variable {a : List (String × Reading Rat)} {n : String}

theorem number_ofReadings {y : Rat} (ha : (a.map (·.1)).Nodup) (h : (n, .number y) ∈ a) :
    (ofReadings a).number n = y := by
  simp only [ofReadings, Assoc.get?_of_mem ha h]

theorem label_ofReadings {l : Option String} (ha : (a.map (·.1)).Nodup) (h : (n, .label l) ∈ a) :
    (ofReadings a).label n = l := by
  simp only [ofReadings, Assoc.get?_of_mem ha h]

end Valuation

/-! ### The largest indicator -/

namespace Program

/-- When one value is one and the others are zero, the label of this one is the largest. -/
theorem largest_eq {label : Option String} {first : Option String × Rat}
    {rest : List (Option String × Rat)}
    (h : ∀ e ∈ first :: rest, e.2 = if label = e.1 then 1 else 0)
    (hmem : label ∈ (first :: rest).map (·.1)) : largest first rest = label := by
  induction rest generalizing first with
  | nil => exact (List.mem_singleton.mp hmem).symm
  | cons next rest ih =>
    have hfirst := h first List.mem_cons_self
    have hnext := h next (List.mem_cons_of_mem _ List.mem_cons_self)
    have hrest : ∀ e ∈ rest, e.2 = if label = e.1 then 1 else 0 := fun e he =>
      h e (List.mem_cons_of_mem _ (List.mem_cons_of_mem _ he))
    rw [largest]
    by_cases hl : label = first.1
    · -- the first one is one, so no other is larger
      have hle : ¬ first.2 < next.2 := by
        rw [hfirst, hnext, if_pos hl]
        split <;> norm_num
      rw [if_neg hle]
      refine ih (List.forall_mem_cons.mpr ⟨hfirst, hrest⟩) ?_
      rw [hl]
      exact List.mem_cons_self
    · rw [if_neg hl] at hfirst
      have hmem' : label ∈ (next :: rest).map (·.1) := (List.mem_cons.mp hmem).resolve_left hl
      split
      · exact ih (List.forall_mem_cons.mpr ⟨hnext, hrest⟩) hmem'
      · next hlt =>
        refine ih (List.forall_mem_cons.mpr ⟨by rw [hfirst, if_neg hl], hrest⟩) ?_
        refine List.mem_cons_of_mem _ ((List.mem_cons.mp hmem').resolve_left fun hn => hlt ?_)
        rw [hfirst, hnext, if_pos hn]
        exact one_pos

theorem chosen_eq {K : Type} [Scalar K] {point : List (String × Rat)} {indicators : Indicators}
    {label : Option String} (hmem : label ∈ indicators.map (·.1))
    (h : ∀ e ∈ indicators, Assoc.get? e.2 point = some (if label = e.1 then 1 else 0)) :
    chosen (K := K) point indicators = .ok label := by
  have hvalues : (indicators.mapM fun e => do
      return (e.1, ← valueAt (K := K) point e.2)) =
        Except.ok (indicators.map fun e => (e.1, if label = e.1 then (1 : Rat) else 0)) := by
    refine Outcome.mapM_eq_map fun e he => ?_
    rw [valueAt, h e he]
    rfl
  rw [chosen, hvalues, Outcome.ok_bind]
  cases indicators with
  | nil => cases hmem
  | cons first rest =>
    refine congrArg Except.ok (largest_eq ?_ ?_)
    · intro e he
      rw [← List.map_cons (f := fun e : Option String × String =>
        (e.1, if label = e.1 then (1 : Rat) else 0))] at he
      obtain ⟨i, -, rfl⟩ := List.mem_map.mp he
      rfl
    · simpa using hmem

end Program

/-! ### Points of a program of rules -/

section Assembled

variable {u : Usage} {clauses : List (Clause Rat)} (hu : u.Covers clauses)
  {settings : Settings Rat} {parts : List (String × Encoding Rat)}

include hu

theorem Valuation.readings_assemble (v : Valuation) :
    v.readings (.assemble (u.vocabulary settings) parts) =
      ((u.ofKind .numeric).map fun n => (n, .number (v.number n))) ++
        (u.ofKind .categorical).map fun n => (n, .label (u.choice v n)) := by
  rw [readings, Program.numeric_assemble hu, Program.indicators_assemble hu, List.map_map,
    List.map_map]
  congr 1
  refine List.map_congr_left fun n _ => Prod.ext rfl (congrArg Reading.label ?_)
  have hkeys : ((u.options n).map fun l => (l, indicatorName n l)).map (·.1) = u.options n := by
    rw [List.map_map]
    exact List.map_id _
  rw [hkeys, Usage.choice]

/-- The variables of a reading differ. -/
theorem Valuation.nodup_readings (v : Valuation) :
    ((v.readings (.assemble (u.vocabulary settings) parts)).map (·.1)).Nodup := by
  rw [readings_assemble hu]
  exact hu.nodup_readings v.number (u.choice v)

section OfReadings

variable (v : Valuation)

theorem Valuation.number_ofReadings_readings {n : String} (hn : n ∈ u.ofKind .numeric) :
    (ofReadings (v.readings (.assemble (u.vocabulary settings) parts))).number n = v.number n := by
  refine number_ofReadings (v.nodup_readings hu) ?_
  rw [v.readings_assemble hu]
  exact List.mem_append_left _ (List.mem_map_of_mem hn)

theorem Usage.choice_ofReadings_readings {n : String} (hn : n ∈ u.ofKind .categorical) :
    u.choice (.ofReadings (v.readings (.assemble (u.vocabulary settings) parts))) n =
      u.choice v n := by
  refine choice_congr (Valuation.label_ofReadings (v.nodup_readings hu) ?_)
  rw [v.readings_assemble hu]
  exact List.mem_append_right _ (List.mem_map_of_mem hn)

/-- Reading a valuation off, taking it as one and reading it off again changes nothing. -/
theorem Valuation.readings_ofReadings :
    (ofReadings (v.readings (.assemble (u.vocabulary settings) parts))).readings
        (.assemble (u.vocabulary settings) parts) =
      v.readings (.assemble (u.vocabulary settings) parts) := by
  refine (readings_assemble hu _).trans (Eq.trans ?_ (readings_assemble hu v).symm)
  congr 1
  · refine List.map_congr_left fun n hn => ?_
    rw [v.number_ofReadings_readings hu hn]
  · refine List.map_congr_left fun n hn => ?_
    rw [Usage.choice_ofReadings_readings hu v hn]

theorem Reads.ofReadings {x : String → Rat} {v : Valuation} (h : Reads u x v) :
    Reads u x (.ofReadings (v.readings (.assemble (u.vocabulary settings) parts))) := by
  constructor
  · intro n hn
    rw [h.number n hn, v.number_ofReadings_readings hu hn]
  · intro n hn l hl
    rw [h.label n hn l hl, Usage.choice_ofReadings_readings hu v hn]

end OfReadings

/-- What is read off a point at which a valuation belongs. -/
theorem Program.decode_eq {point : List (String × Rat)} {v : Valuation}
    (hnumber : ∀ n ∈ u.ofKind .numeric, Assoc.get? (numericName n) point = some (v.number n))
    (hlabel : ∀ n ∈ u.ofKind .categorical, ∀ l ∈ u.options n,
      Assoc.get? (indicatorName n l) point = some (if u.choice v n = l then 1 else 0)) :
    (assemble (u.vocabulary settings) parts).decode point =
      .ok (v.readings (.assemble (u.vocabulary settings) parts)) := by
  rw [v.readings_assemble hu]
  refine decode_assemble hu v.number (u.choice v) (fun n hn => ?_) fun n hn => chosen_eq ?_ ?_
  · rw [valueAt, hnumber n hn]
  · rw [List.map_map]
    exact List.mem_map_of_mem (f := fun l => l) (u.choice_mem_options v n)
  · intro e he
    obtain ⟨l, hl, rfl⟩ := List.mem_map.mp he
    exact hlabel n hn l hl

/-- A valuation in the box gives the decision variables of the rules' variables values in range. -/
theorem Reads.admits {x : String → Rat} {v : Valuation} (h : Reads u x v)
    (hbox : v.InBox settings (u.ofKind .numeric)) :
    ∀ d ∈ (u.vocabulary settings).vars, d.Admits (x d.name) := by
  rw [hu.vars_eq, List.forall_mem_append]
  constructor
  · rw [List.forall_mem_map]
    intro n hn
    have hvalue : x (DecisionVar.ofNumber settings n).name = v.number n := h.number n hn
    obtain ⟨hlower, hupper⟩ := abs_le.mp (hbox n hn)
    rw [hvalue]
    exact ⟨hlower, hupper, fun hbinary => by cases hbinary⟩
  · intro d hd
    obtain ⟨n, hn, hd⟩ := List.mem_flatMap.mp hd
    obtain ⟨l, hl, rfl⟩ := List.mem_map.mp hd
    have hvalue : x (Vocabulary.indicator (K := Rat) n l).name =
        if u.choice v n = l then 1 else 0 := h.label n hn l hl
    rw [hvalue]
    split
    · exact ⟨zero_le_one, le_rfl, fun _ => .inr rfl⟩
    · exact ⟨le_rfl, zero_le_one, fun _ => .inl rfl⟩

/-! ### Exactly one label -/

private theorem exactlyOne_holds_iff {x : String → Rat} :
    (∀ row ∈ (u.vocabulary settings).exactlyOne, row.Holds x) ↔
      ∀ n ∈ u.ofKind .categorical, ((u.options n).map fun l => x (indicatorName n l)).sum = 1 := by
  have hrow (n : String) (label : String) :
      Row.Holds ⟨((u.options n).map fun l => (l, Vocabulary.indicator (K := Rat) n l)).map
        fun i => (i.2.name, 1), .eq, 1, label, none⟩ x ↔
          ((u.options n).map fun l => x (indicatorName n l)).sum = 1 := by
    have hterms : ((((u.options n).map fun l => (l, Vocabulary.indicator (K := Rat) n l)).map
        fun i => (i.2.name, (1 : Rat))).map fun t => t.2 * x t.1) =
          (u.options n).map fun l => x (indicatorName n l) := by
      rw [List.map_map, List.map_map]
      exact List.map_congr_left fun l _ => one_mul _
    rw [Row.holds_plain, hterms]
    rfl
  rw [Vocabulary.exactlyOne, hu.vocabulary_eq, List.map_map, List.forall_mem_map]
  exact forall₂_congr fun n _ => hrow n _

/-- Every categorical variable has exactly one label at a point at which a valuation belongs. -/
theorem Reads.exactlyOne_holds {x : String → Rat} {v : Valuation} (h : Reads u x v) :
    ∀ row ∈ (u.vocabulary settings).exactlyOne, row.Holds x := by
  refine (exactlyOne_holds_iff hu).mpr fun n hn => ?_
  rw [List.map_congr_left (h.label n hn), sum_map_ite_eq _ (hu.nodup_options n),
    if_pos (u.choice_mem_options v n)]

/-- A point in range at which every categorical variable has exactly one label belongs to some
valuation. -/
theorem exists_reads {x : String → Rat}
    (hvars : ∀ d ∈ (u.vocabulary settings).vars, d.Admits (x d.name))
    (hrows : ∀ row ∈ (u.vocabulary settings).exactlyOne, row.Holds x) : ∃ v, Reads u x v := by
  rw [hu.vars_eq] at hvars
  have hone : ∀ n ∈ u.ofKind .categorical, ∃ l ∈ u.options n, ∀ m ∈ u.options n,
      x (indicatorName n m) = if l = m then 1 else 0 := by
    intro n hn
    refine exists_of_sum_eq_one (fun l hl => ?_) ((exactlyOne_holds_iff hu).mp hrows n hn)
    have hmem : Vocabulary.indicator n l ∈ (u.ofKind .categorical).flatMap
        fun v => (u.options v).map (Vocabulary.indicator (K := Rat) v) :=
      List.mem_flatMap.mpr ⟨n, hn, List.mem_map_of_mem hl⟩
    exact (hvars _ (List.mem_append_right _ hmem)).2.2 rfl
  choose! label hmem hlabel using hone
  refine ⟨⟨fun n => x (numericName n), label⟩, fun n _ => rfl, fun n hn l hl => ?_⟩
  have hchoice : u.choice ⟨fun n => x (numericName n), label⟩ n = label n := if_pos (hmem n hn)
  rw [hlabel n hn l hl, hchoice]

/-- A valuation that belongs to a point in range is in the box. -/
theorem Reads.inBox {x : String → Rat} {v : Valuation} (h : Reads u x v)
    (hvars : ∀ d ∈ (u.vocabulary settings).vars, d.Admits (x d.name)) :
    v.InBox settings (u.ofKind .numeric) := by
  rw [hu.vars_eq] at hvars
  intro n hn
  obtain ⟨hlower, hupper, -⟩ := hvars _ (List.mem_append_left _ (List.mem_map_of_mem hn))
  rw [← h.number n hn]
  exact abs_le.mpr ⟨hlower, hupper⟩

end Assembled

end RuleAudit
