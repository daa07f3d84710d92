import RuleAudit.Program.Decode
import RuleAudit.Proofs.Program.Usage

/-!
# Decision variables in use

With exact tables of kinds and labels, the decision variables of rules are known one by one
(`Usage.Covers.vocabulary_eq`), and so is what every lookup finds. A program is put together from
them and from the encodings of the rules (`Program.ofRules_eq_ok`).
-/

namespace RuleAudit

variable {K : Type} [Scalar K]

/-- The decision variable of a numeric variable. -/
def DecisionVar.ofNumber (settings : Settings K) (name : String) : DecisionVar K :=
  ⟨numericName name, .continuous, -settings.bound name, settings.bound name⟩

namespace Usage

variable {u : Usage} {clauses : List (Clause K)} {settings : Settings K} {v : String}

/-- The labels of a variable, and the one for all others. -/
def options (u : Usage) (v : String) : List (Option String) :=
  (labelsOf u.labels v).map some ++ [none]

theorem none_mem_options (u : Usage) (v : String) : none ∈ u.options v :=
  List.mem_append_right _ (List.mem_singleton_self none)

/-- Values of the variables in use, the numbers first. -/
def readings {V : Type} (u : Usage) (number : String → V) (label : String → Option String) :
    List (String × Reading V) :=
  ((u.ofKind .numeric).map fun n => (n, .number (number n))) ++
    (u.ofKind .categorical).map fun n => (n, .label (label n))

theorem some_mem_options {l : String} : some l ∈ u.options v ↔ l ∈ labelsOf u.labels v := by
  rw [options, List.mem_append, List.mem_singleton, List.mem_map]
  simp

namespace Covers

variable (h : u.Covers clauses)

include h

theorem mem_ofKind {kind : VarKind} :
    v ∈ u.ofKind kind ↔ (v, kind) ∈ clauses.flatMap Clause.uses := by
  rw [← h.kinds.mem_iff]
  exact mem_namesOf

theorem nodup_ofKind (kind : VarKind) : (u.ofKind kind).Nodup :=
  h.kinds.nodup.sublist (List.filter_sublist.map _)

theorem nodup_options (v : String) : (u.options v).Nodup := by
  have hlabels : (labelsOf u.labels v).Nodup := (h.labels.ascending v).imp fun hlt => by
    rintro rfl
    exact String.lt_irrefl _ hlt
  refine List.nodup_append.mpr ⟨?_, List.nodup_singleton _, ?_⟩
  · exact hlabels.map (Option.some_injective _)
  · rintro _ ha _ hb rfl
    obtain rfl := List.mem_singleton.mp hb
    obtain ⟨l, -, hl⟩ := List.mem_map.mp ha
    cases hl

/-- A variable whose labels a clause mentions is categorical. -/
theorem mem_ofKind_of_mem_labelsOf {l : String} (hl : l ∈ labelsOf u.labels v) :
    v ∈ u.ofKind .categorical := by
  obtain ⟨c, hc, hm⟩ := (h.labels.mem_iff v l).mp hl
  refine h.mem_ofKind.mpr (List.mem_flatMap.mpr ⟨c, hc, ?_⟩)
  cases c with
  | membership c => exact hm.1 ▸ List.mem_singleton_self _
  | linear c => cases hm
  | foreign d => cases hm

/-- Every numeric variable has one variable, and every categorical one an indicator for each of its
labels and one more. -/
theorem vocabulary_eq : u.vocabulary settings =
    ⟨(u.ofKind .numeric).map fun v => (v, .ofNumber settings v),
      (u.ofKind .categorical).map fun v =>
        (v, (u.options v).map fun l => (l, Vocabulary.indicator v l))⟩ := by
  have hkeys {β : Type} (f : String → β) (kind : VarKind) :
      (((u.ofKind kind).map fun v => (v, f v)).map (·.1)).Nodup := by
    rw [List.map_map]
    exact (List.map_id _).symm ▸ h.nodup_ofKind kind
  have hnumeric : Vocabulary.numericVars settings (u.ofKind .numeric) =
      (u.ofKind .numeric).map fun v => (v, .ofNumber settings v) :=
    Assoc.ofPairs_of_nodup (hkeys _ _)
  have hindicators (v : String) :
      Vocabulary.indicatorsOf (K := K) v ((labelsOf u.labels v).map some) =
        (u.options v).map fun l => (l, Vocabulary.indicator v l) := by
    refine Assoc.ofPairs_of_nodup ?_
    rw [List.map_map]
    exact (List.map_id _).symm ▸ h.nodup_options v
  have hlabels : Assoc.ofPairs ((u.ofKind .categorical).map fun v =>
      (v, (labelsOf u.labels v).map some)) =
        (u.ofKind .categorical).map fun v => (v, (labelsOf u.labels v).map some) :=
    Assoc.ofPairs_of_nodup (hkeys _ _)
  rw [vocabulary, Vocabulary.make, hnumeric]
  congr 1
  refine (congrArg (List.map _) hlabels).trans ?_
  rw [List.map_map]
  exact List.map_congr_left fun v _ => Prod.ext rfl (hindicators v)

/-! ### Lookups -/

theorem numericVar_eq (hv : v ∈ u.ofKind .numeric) :
    (u.vocabulary settings).numericVar v = .ok (.ofNumber settings v) := by
  rw [h.vocabulary_eq, Vocabulary.numericVar, Assoc.get?_map_of_mem _ hv]

theorem labelVars_eq (hv : v ∈ u.ofKind .categorical) :
    (u.vocabulary settings).labelVars v =
      .ok ((u.options v).map fun l => (l, Vocabulary.indicator v l)) := by
  rw [h.vocabulary_eq, Vocabulary.labelVars,
    Assoc.get?_map_of_mem (fun v => (u.options v).map fun l => (l, Vocabulary.indicator v l)) hv]

theorem vars_eq : (u.vocabulary settings).vars =
    (u.ofKind .numeric).map (.ofNumber settings) ++
      (u.ofKind .categorical).flatMap fun v => (u.options v).map (Vocabulary.indicator v) := by
  rw [h.vocabulary_eq, Vocabulary.vars, List.map_map, List.flatMap_map]
  simp only [List.map_map]
  rfl

end Covers

theorem labelVar_eq {l : String} (hl : l ∈ labelsOf u.labels v) :
    Vocabulary.labelVar (K := K) ((u.options v).map fun l => (l, Vocabulary.indicator v l)) l =
      .ok (Vocabulary.indicator v (some l)) := by
  rw [Vocabulary.labelVar, Assoc.get?_map_of_mem _ (some_mem_options.mpr hl)]

end Usage

/-! ### Encodings by the shape of the normal form -/

namespace Encoding

variable {position : Nat} {rule : String} {dnf : Dnf K} {vocabulary : Vocabulary K}
  {settings : Settings K}

/-- A normal form has no terms, a true term, a single term or several. -/
theorem shape (dnf : Dnf K) : dnf = [] ∨ [] ∈ dnf ∨ (∃ term, term ≠ [] ∧ dnf = [term]) ∨
    2 ≤ dnf.length ∧ [] ∉ dnf := by
  by_cases hmem : [] ∈ dnf
  · exact .inr (.inl hmem)
  · match dnf with
    | [] => exact .inl rfl
    | [term] => exact .inr (.inr (.inl ⟨term, fun h => hmem (h ▸ List.mem_singleton_self _), rfl⟩))
    | s :: t :: rest => exact .inr (.inr (.inr ⟨by simp, hmem⟩))

private theorem any_isEmpty_iff : dnf.any (·.isEmpty) = true ↔ [] ∈ dnf := by
  simp [List.any_eq_true]

theorem ofDnf_nil : ofDnf position rule [] vocabulary settings = .ok
    { vars := [⟨"false[" ++ (toString position ++ ":" ++ rule) ++ "]", .binary, 0, 0⟩]
      rows := [⟨[("false[" ++ (toString position ++ ":" ++ rule) ++ "]", 1)], .ge, 1,
        rule ++ ": always false", none⟩] } := rfl

theorem ofDnf_of_mem (h : [] ∈ dnf) : ofDnf position rule dnf vocabulary settings = .ok {} := by
  have hne : ¬ dnf.isEmpty = true := by
    rw [List.isEmpty_iff]
    exact List.ne_nil_of_mem h
  unfold ofDnf
  rw [if_neg hne, if_pos (any_isEmpty_iff.mpr h)]

theorem ofDnf_singleton {term : Term K} (h : term ≠ []) :
    ofDnf position rule [term] vocabulary settings =
      termRows rule vocabulary settings none 0 term >>= fun rows => .ok { rows } := by
  have hne : ¬ ([term] : Dnf K).any (·.isEmpty) = true := by
    rw [any_isEmpty_iff, List.mem_singleton]
    exact Ne.symm h
  unfold ofDnf
  rw [if_neg (by simp), if_neg hne]
  rfl

theorem ofDnf_of_two_le (hlen : 2 ≤ dnf.length) (h : [] ∉ dnf) :
    ofDnf position rule dnf vocabulary settings =
      termsRows rule vocabulary settings 0
        ((selectorNames (toString position ++ ":" ++ rule) dnf.length).zip dnf) >>= fun rows => .ok
          { vars := (selectorNames (toString position ++ ":" ++ rule) dnf.length).map
              fun s => ⟨s, .binary, 0, 1⟩
            rows := rows ++ [⟨(selectorNames (toString position ++ ":" ++ rule) dnf.length).map
              fun s => (s, 1), .ge, 1, rule ++ ": at least one term", none⟩]
            selectors := selectorNames (toString position ++ ":" ++ rule) dnf.length } := by
  match dnf, hlen with
  | s :: t :: rest, _ =>
    unfold ofDnf
    rw [if_neg (by simp), if_neg (any_isEmpty_iff.not.mpr h)]
    rfl

end Encoding

/-! ### Putting a program together -/

namespace Program

/-- The program of decision variables and encodings. -/
def assemble (vocabulary : Vocabulary K) (parts : List (String × Encoding K)) : Program K where
  vars := vocabulary.vars ++ parts.flatMap (·.2.vars)
  rows := vocabulary.exactlyOne ++ parts.flatMap (·.2.rows)
  numeric := vocabulary.numeric.map fun (v, d) => (v, d.name)
  indicators := vocabulary.indicators.map fun (v, is) => (v, is.map fun (l, d) => (l, d.name))
  selectors := Assoc.ofPairs ((parts.filter (!·.2.selectors.isEmpty)).map fun (name, e) =>
    (name, e.selectors))

/-- A program is made of the variables in use and the encodings of the rules. -/
theorem ofRules_eq_ok {rules : List (Rule K)} {settings : Settings K} {p : Program K} :
    ofRules rules settings = .ok p ↔ ∃ u parts, Usage.ofRules rules = .ok u ∧
      encodings (u.vocabulary settings) settings 0 rules = .ok parts ∧
      p = assemble (u.vocabulary settings) parts := by
  constructor
  · intro h
    obtain ⟨u, hu, h⟩ := Outcome.bind_eq_ok.mp h
    obtain ⟨parts, hparts, h⟩ := Outcome.bind_eq_ok.mp h
    exact ⟨u, parts, hu, hparts, (Except.ok.inj h).symm⟩
  · rintro ⟨u, parts, hu, hparts, rfl⟩
    simp only [ofRules, hu, Outcome.ok_bind, hparts]
    rfl

end Program

/-! ### What a program remembers -/

section Assembled

variable {u : Usage} {clauses : List (Clause K)} (hu : u.Covers clauses)
  {settings : Settings K} {parts : List (String × Encoding K)}

include hu

theorem Program.numeric_assemble : (assemble (u.vocabulary settings) parts).numeric =
    (u.ofKind .numeric).map fun n => (n, numericName n) := by
  have hdef : (assemble (u.vocabulary settings) parts).numeric =
      (u.vocabulary settings).numeric.map fun e => (e.1, e.2.name) := rfl
  rw [hdef, hu.vocabulary_eq, List.map_map]
  rfl

theorem Program.indicators_assemble : (assemble (u.vocabulary settings) parts).indicators =
    (u.ofKind .categorical).map fun n =>
      (n, (u.options n).map fun l => (l, indicatorName n l)) := by
  have hdef : (assemble (u.vocabulary settings) parts).indicators =
      (u.vocabulary settings).indicators.map fun e => (e.1, e.2.map fun i => (i.1, i.2.name)) := rfl
  rw [hdef, hu.vocabulary_eq, List.map_map]
  exact List.map_congr_left fun n _ => Prod.ext rfl List.map_map

theorem Usage.Covers.nodup_vars : (u.ofKind .numeric ++ u.ofKind .categorical).Nodup := by
  refine List.nodup_append.mpr ⟨hu.nodup_ofKind _, hu.nodup_ofKind _, ?_⟩
  rintro n hn _ hc rfl
  cases hu.kinds.kind_unique (hu.mem_ofKind.mp hn) (hu.mem_ofKind.mp hc)

/-! ### Values of the variables in use -/

section Readings

variable {V : Type} (number : String → V) (label : String → Option String)

theorem Usage.Covers.nodup_readings : ((u.readings number label).map (·.1)).Nodup := by
  rw [Usage.readings, List.map_append, List.map_map, List.map_map]
  exact (List.map_id (u.ofKind .numeric)).symm ▸
    (List.map_id (u.ofKind .categorical)).symm ▸ hu.nodup_vars

/-- A point is read variable by variable. -/
theorem Program.decode_assemble [LT V] [DecidableLT V] {point : List (String × V)}
    (hnumber : ∀ n ∈ u.ofKind .numeric,
      valueAt (K := K) point (numericName n) = .ok (number n))
    (hlabel : ∀ n ∈ u.ofKind .categorical,
      chosen (K := K) point ((u.options n).map fun l => (l, indicatorName n l)) =
        .ok (label n)) :
    (assemble (u.vocabulary settings) parts).decode point = .ok (u.readings number label) := by
  rw [decode, numeric_assemble hu, indicators_assemble hu, List.mapM_map, List.mapM_map,
    Outcome.mapM_eq_map (g := fun n => (n, Reading.number (number n))) fun n hn => ?_,
    Outcome.ok_bind,
    Outcome.mapM_eq_map (g := fun n => (n, Reading.label (label n))) fun n hn => ?_,
    Outcome.ok_bind]
  · exact congrArg Except.ok (Assoc.ofPairs_of_nodup (hu.nodup_readings number label))
  · dsimp only [Function.comp_apply]
    rw [hlabel n hn]
    rfl
  · dsimp only [Function.comp_apply]
    rw [hnumber n hn]
    rfl

end Readings

end Assembled

end RuleAudit
