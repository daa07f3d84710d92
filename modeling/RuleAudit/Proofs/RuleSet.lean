import RuleAudit.Proofs.Outcome
import RuleAudit.Rule.Build

/-!
# Sets of named rules

The rules of a set are told apart by their names, so a set can be cut down to some of its rules, and
a rule can be looked up or exchanged, by name.
-/

namespace RuleAudit

namespace RuleSet

variable {K : Type} [Scalar K] {s t : RuleSet K} {names : List String} {r : Rule K}

theorem eq_of_rules_eq (h : s.rules = t.rules) : s = t := by
  cases s
  cases t
  cases h
  rfl

/-- Rules of a set are told apart by their names. -/
theorem eq_of_name_eq {r' : Rule K} (hr : r ∈ s.rules) (hr' : r' ∈ s.rules)
    (h : r.name = r'.name) : r = r' :=
  List.inj_on_of_nodup_map s.distinct hr hr' h

theorem name_mem_map_iff {rules : List (Rule K)} (h : rules ⊆ s.rules) (hr : r ∈ s.rules) :
    r.name ∈ rules.map (·.name) ↔ r ∈ rules := by
  refine ⟨fun hname => ?_, List.mem_map_of_mem⟩
  obtain ⟨q, hq, heq⟩ := List.mem_map.mp hname
  exact eq_of_name_eq (h hq) hr heq ▸ hq

theorem ofList_rules (s : RuleSet K) : ofList s.rules = .ok s :=
  dif_pos s.distinct

theorem rules_of_ofList {rules : List (Rule K)} (h : ofList rules = .ok t) : t.rules = rules := by
  rw [ofList] at h
  split at h
  · rw [← Except.ok.inj h]
  · cases h

theorem item_eq (hr : r ∈ s.rules) : s.item r.name = .ok r := by
  have hfound : s.find? r.name = some r := by
    obtain ⟨r', hr'⟩ : ∃ r', s.find? r.name = some r' :=
      Option.isSome_iff_exists.mp (List.find?_isSome.mpr ⟨r, hr, beq_self_eq_true _⟩)
    have hname : r'.name = r.name := by simpa using List.find?_some hr'
    rw [hr', eq_of_name_eq (List.mem_of_find?_eq_some hr') hr hname]
  rw [item, hfound]

/-- A rule that is in the set is found. -/
theorem exists_item {name : String} (h : s.contains name = true) :
    ∃ r, s.item name = .ok r ∧ r ∈ s.rules ∧ r.name = name := by
  obtain ⟨r, hr, rfl⟩ := List.mem_map.mp (List.contains_iff_mem.mp h)
  exact ⟨r, item_eq hr, hr, rfl⟩

/-! ### Two rules of one name -/

section Duplicates

variable {rules kept more : List (Rule K)}

/-- An error about two rules of one name is about the first one whose name an earlier rule has. -/
theorem exists_ofList_eq_error (h : ¬ (rules.map (·.name)).Nodup) :
    ∃ before r after, rules = before ++ r :: after ∧ r.name ∈ before.map (·.name) ∧
      ofList rules = .error (.definition ⟨.text r.name, none⟩ .duplicateRule) := by
  suffices hs : ∀ seen : List String,
      ((∀ r ∈ rules, r.name ∉ seen) ∧ (rules.map (·.name)).Nodup) ∨
      ∃ before r after, rules = before ++ r :: after ∧
        (r.name ∈ seen ∨ r.name ∈ before.map (·.name)) ∧
        firstDuplicate? seen rules = some r.name by
    obtain ⟨-, hnodup⟩ | ⟨before, r, after, hsplit, hname, hfirst⟩ := hs []
    · exact absurd hnodup h
    · refine ⟨before, r, after, hsplit, hname.resolve_left List.not_mem_nil, ?_⟩
      rw [ofList, dif_neg h, hfirst]
      rfl
  clear h
  induction rules with
  | nil => exact fun seen => .inl ⟨List.forall_mem_nil _, List.nodup_nil⟩
  | cons r rules ih =>
    intro seen
    rw [firstDuplicate?]
    by_cases hseen : r.name ∈ seen
    · refine .inr ⟨[], r, rules, rfl, .inl hseen, ?_⟩
      rw [if_pos (List.contains_iff_mem.mpr hseen)]
    · rw [if_neg (mt List.contains_iff_mem.mp hseen)]
      obtain ⟨hnew, hnodup⟩ | ⟨before, q, after, rfl, hq, hfirst⟩ := ih (r.name :: seen)
      · refine .inl ⟨List.forall_mem_cons.mpr ⟨hseen, fun q hq hmem => ?_⟩,
          List.nodup_cons.mpr ⟨fun hmem => ?_, hnodup⟩⟩
        · exact hnew q hq (List.mem_cons_of_mem _ hmem)
        · obtain ⟨q, hq, hname⟩ := List.mem_map.mp hmem
          exact hnew q hq (hname ▸ List.mem_cons_self)
      · refine .inr ⟨r :: before, q, after, rfl, ?_, hfirst⟩
        rw [List.map_cons, List.mem_cons]
        rw [List.mem_cons] at hq
        tauto

/-- When rules are added, the only clash is of an added rule with one that was there. -/
theorem ofList_append_cases (hkept : (kept.map (·.name)).Nodup)
    (hmore : (more.map (·.name)).Nodup) :
    (∃ t, ofList (kept ++ more) = .ok t) ∨ ∃ q ∈ kept, ∃ p ∈ more, q.name = p.name ∧
      ofList (kept ++ more) = .error (.definition ⟨.text p.name, none⟩ .duplicateRule) := by
  by_cases hnodup : ((kept ++ more).map (·.name)).Nodup
  · exact .inl ⟨⟨_, hnodup⟩, dif_pos hnodup⟩
  obtain ⟨before, p, after, hsplit, hname, herror⟩ := exists_ofList_eq_error hnodup
  -- neither list has a name twice by itself
  have htwice {l before after : List (Rule K)} (hl : l = before ++ p :: after)
      (hnodup : (l.map (·.name)).Nodup) : p.name ∉ before.map (·.name) := fun hmem => by
    rw [hl, List.map_append, List.map_cons] at hnodup
    exact (List.nodup_append.mp hnodup).2.2 _ hmem _ List.mem_cons_self rfl
  have hp : p ∈ more ∧ p.name ∈ kept.map (·.name) := by
    rcases List.append_eq_append_iff.mp hsplit with ⟨front, rfl, hfront⟩ | ⟨front, rfl, hfront⟩
    · rw [List.map_append, List.mem_append] at hname
      exact ⟨hfront ▸ List.mem_append_right _ List.mem_cons_self,
        hname.resolve_right (htwice hfront hmore)⟩
    · cases front with
      | nil =>
        rw [List.nil_append] at hfront
        rw [List.append_nil]
        exact ⟨hfront ▸ List.mem_cons_self, hname⟩
      | cons q front =>
        obtain ⟨rfl, -⟩ := List.cons.inj hfront
        exact absurd hname (htwice rfl hkept)
  obtain ⟨q, hq, hsame⟩ := List.mem_map.mp hp.2
  exact .inr ⟨q, hq, p, hp.1, hsame, herror⟩

end Duplicates

/-! ### Leaving rules out -/

theorem mem_filter {keep : Rule K → Bool} :
    r ∈ (s.filter keep).rules ↔ r ∈ s.rules ∧ keep r = true :=
  List.mem_filter

theorem mem_without : r ∈ (s.without names).rules ↔ r ∈ s.rules ∧ r.name ∉ names := by
  simp [without, mem_filter]

theorem without_nil (s : RuleSet K) : s.without [] = s :=
  eq_of_rules_eq (List.filter_eq_self.mpr fun _ _ => rfl)

theorem mem_only : r ∈ (s.only names).rules ↔ r ∈ s.rules ∧ r.name ∈ names := by
  simp [only, mem_filter]

theorem mem_names {name : String} : name ∈ s.names ↔ ∃ r ∈ s.rules, r.name = name :=
  List.mem_map

theorem mem_names_only {name : String} :
    name ∈ (s.only names).names ↔ name ∈ s.names ∧ name ∈ names := by
  simp only [mem_names, mem_only]
  constructor
  · rintro ⟨r, ⟨hr, hname⟩, rfl⟩
    exact ⟨⟨r, hr, rfl⟩, hname⟩
  · rintro ⟨⟨r, hr, rfl⟩, hname⟩
    exact ⟨r, ⟨hr, hname⟩, rfl⟩

theorem only_names_subset {rules : List (Rule K)} (h : rules ⊆ s.rules) :
    (s.only (rules.map (·.name))).rules ⊆ rules := by
  intro r hr
  obtain ⟨hmem, hname⟩ := mem_only.mp hr
  exact (name_mem_map_iff h hmem).mp hname

theorem only_subset {more : List String} (h : names ⊆ more) :
    (s.only names).rules ⊆ (s.only more).rules := fun _ hr =>
  mem_only.mpr ((mem_only.mp hr).imp_right (@h _))

/-! ### Exchanging a rule -/

/-- A rule can be exchanged for itself. -/
theorem rules_eq_map (hr : r ∈ s.rules) :
    s.rules = s.rules.map fun x => if x.name == r.name then r else x := by
  refine (List.map_id s.rules).symm.trans (List.map_congr_left fun x hx => ?_)
  split
  · next hname => exact eq_of_name_eq hx hr (eq_of_beq hname)
  · rfl

/-- Exchanging a rule for one of the same name. -/
theorem exists_replace {r' : Rule K} (hr : r ∈ s.rules) (hname : r'.name = r.name) :
    ∃ t, s.replace r' = .ok t ∧
      (t.rules = s.rules.map fun x => if x.name == r.name then r' else x) ∧ t.names = s.names := by
  have hcontains : s.contains r'.name = true := by
    rw [contains, List.contains_iff_mem, hname]
    exact List.mem_map_of_mem hr
  have hnames : (s.rules.map fun x => if x.name == r.name then r' else x).map (·.name) =
      s.rules.map (·.name) := by
    rw [List.map_map]
    refine List.map_congr_left fun x _ => ?_
    rw [Function.comp_apply]
    split
    · next h => rw [hname, eq_of_beq h]
    · rfl
  have hnodup : ((s.rules.map fun x => if x.name == r.name then r' else x).map
      (·.name)).Nodup := hnames ▸ s.distinct
  refine ⟨⟨_, hnodup⟩, ?_, rfl, hnames⟩
  rw [replace, if_pos hcontains, hname, ofList, dif_pos hnodup]

end RuleSet

end RuleAudit
