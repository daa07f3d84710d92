import Mathlib.Data.List.Lex
import RuleAudit.Proofs.Query.Hinted
import RuleAudit.Proofs.Query.Verdict
import RuleAudit.Proofs.RuleSet
import RuleAudit.Proofs.Settings
import RuleAudit.Query.Culprits

/-!
# Rules whose removal repairs a set

The culprits of a set are found in one of two ways. Subsets of a size are tried in the order of the
places of their rules (`mem_combinations`, `pairwise_combinations`), the small sizes first, so the
first one that repairs the set is the least one (`Oracle.exists_removable`). When no size that the
settings allow is enough, rules are dropped from the front until the rest is feasible and are taken
back one by one. A rule that could not be taken back cannot be taken back later either, since the
rules that are active only become more (`Oracle.exists_takeBack`, `IsMaximal.isRepair`). Either way
the culprits repair the set and none of them can be spared (`Oracle.exists_culprits`).
-/

namespace RuleAudit

/-! ### Subsets of a size -/

section Combinations

variable {α : Type} {n : Nat} {l c : List α}

theorem mem_combinations : c ∈ combinations n l ↔ c.Sublist l ∧ c.length = n := by
  induction l generalizing n c with
  | nil =>
    rw [List.sublist_nil]
    cases n with
    | zero => simp +contextual [combinations]
    | succ n => simp +contextual [combinations]
  | cons a l ih =>
    cases n with
    | zero =>
      rw [combinations, List.mem_singleton, List.length_eq_zero_iff]
      exact ⟨fun h => ⟨h ▸ List.nil_sublist _, h⟩, And.right⟩
    | succ n =>
      rw [combinations, List.mem_append, List.mem_map, ih, List.sublist_cons_iff]
      constructor
      · rintro (⟨b, hb, rfl⟩ | ⟨hc, hlen⟩)
        · obtain ⟨hsublist, rfl⟩ := ih.mp hb
          exact ⟨.inr ⟨b, rfl, hsublist⟩, rfl⟩
        · exact ⟨.inl hc, hlen⟩
      · rintro ⟨hc | ⟨b, rfl, hb⟩, hlen⟩
        · exact .inr ⟨hc, hlen⟩
        · exact .inl ⟨b, ih.mpr ⟨hb, Nat.succ.inj hlen⟩, rfl⟩

/-- Subsets of a size come in lexicographic order of the places of their items. -/
theorem pairwise_combinations {place : α → Nat} (h : l.Pairwise fun a b => place a < place b)
    (n : Nat) : (combinations n l).Pairwise fun b c => b.map place < c.map place := by
  induction l generalizing n with
  | nil => cases n <;> simp [combinations]
  | cons a l ih =>
    obtain ⟨ha, hl⟩ := List.pairwise_cons.mp h
    cases n with
    | zero => simp [combinations]
    | succ n =>
      rw [combinations, List.pairwise_append, List.pairwise_map]
      refine ⟨(ih hl n).imp fun hlt => ?_, ih hl (n + 1), fun b hb c hc => ?_⟩
      · rw [List.map_cons, List.map_cons]
        exact List.Lex.cons hlt
      · obtain ⟨b, -, rfl⟩ := List.mem_map.mp hb
        obtain ⟨hc, hlen⟩ := mem_combinations.mp hc
        obtain ⟨d, c, rfl⟩ := List.exists_cons_of_length_eq_add_one hlen
        rw [List.map_cons, List.map_cons]
        exact List.Lex.rel (ha d (hc.subset List.mem_cons_self))

/-- The items of a list without repetition stand at ascending places. -/
theorem pairwise_idxOf [BEq α] [LawfulBEq α] (h : l.Nodup) :
    l.Pairwise fun a b => l.idxOf a < l.idxOf b := by
  rw [List.pairwise_iff_getElem]
  intro i j hi hj hij
  rwa [h.idxOf_getElem, h.idxOf_getElem]

end Combinations

/-- The first item of an ordered list that passes a test comes before all others that pass it. -/
private theorem find?_first {α : Type} {p : α → Bool} {r : α → α → Prop} {l : List α} {a : α}
    (hl : l.Pairwise r) (h : l.find? p = some a) :
    a ∈ l ∧ p a = true ∧ ∀ b ∈ l, p b = true → b = a ∨ r a b := by
  obtain ⟨ha, before, after, rfl, hbefore⟩ := List.find?_eq_some_iff_append.mp h
  refine ⟨by simp, ha, fun b hb hpb => ?_⟩
  rcases List.mem_append.mp hb with hb | hb
  · have hfails := hbefore b hb
    rw [hpb] at hfails
    cases hfails
  · rcases List.mem_cons.mp hb with rfl | hb
    · exact .inl rfl
    · exact .inr ((List.pairwise_cons.mp (List.pairwise_append.mp hl).2.1).1 b hb)

/-! ### Leaving rules out -/

namespace RuleSet

variable {K : Type} [Scalar K] {s : RuleSet K} {names : List String}

/-- Some names of rules are no more than others, and if they are as many, the places of their rules
do not come later. -/
def NotAfter (s : RuleSet K) (names others : List String) : Prop :=
  names.length ≤ others.length ∧
    (others.length = names.length → names.map s.names.idxOf ≤ others.map s.names.idxOf)

theorem notAfter_of_length_lt {others : List String} (h : names.length < others.length) :
    s.NotAfter names others :=
  ⟨h.le, fun heq => absurd heq h.ne'⟩

theorem nil_notAfter (others : List String) : s.NotAfter [] others :=
  ⟨Nat.zero_le _, fun h => List.eq_nil_of_length_eq_zero h ▸ le_rfl⟩

end RuleSet

/-- So many rules may be removed together, unless the settings set a limit below that. -/
theorem Settings.le_removals {settings : Settings Rat} {n m count : Nat}
    (hm : settings.removals count = .ok m) (hcount : n ≤ count)
    (h : settings.maxRemovals.lessThan n = false) : n ≤ m := by
  unfold removals at hm
  split at hm
  · next k hmax =>
    rw [hmax, Amount.lessThan, decide_eq_false_iff_not] at h
    obtain rfl := Except.ok.inj hm
    exact le_min (by omega) hcount
  · next b hmax =>
    rw [hmax, Amount.lessThan, decide_eq_false_iff_not] at h
    obtain rfl := Except.ok.inj hm
    refine le_min ?_ hcount
    cases b <;> simpa using h
  · split at hm
    · exact hcount.trans (Except.ok.inj hm).le
    · cases hm

theorem satisfiable_nil (settings : Settings Rat) : Satisfiable settings [] :=
  ⟨⟨fun _ => 0, fun _ => none⟩, fun n => by
    rw [abs_zero]
    exact (settings.bound_pos n).le, fun r hr => by cases hr⟩

section Repairs

variable {settings : Settings Rat} {s : RuleSet Rat} {removed : List String}

/-- What is left of a set without some rules is feasible. -/
def Repairs (settings : Settings Rat) (s : RuleSet Rat) (removed : List String) : Prop :=
  Satisfiable settings (s.without removed).rules

/-- Leaving more rules out repairs as well. -/
theorem Repairs.mono {more : List String} (h : Repairs settings s removed)
    (hmore : removed ⊆ more) : Repairs settings s more := by
  refine Satisfiable.mono h fun r hr => ?_
  obtain ⟨hmem, hname⟩ := RuleSet.mem_without.mp hr
  exact RuleSet.mem_without.mpr ⟨hmem, fun hremoved => hname (hmore hremoved)⟩

/-- When some rules are feasible, leaving out all others repairs the set. -/
theorem Repairs.of_only {kept : List String} (h : Satisfiable settings (s.only kept).rules)
    (hkept : ∀ n ∈ s.names, n ∉ removed → n ∈ kept) : Repairs settings s removed := by
  refine h.mono fun r hr => ?_
  obtain ⟨hmem, hname⟩ := RuleSet.mem_without.mp hr
  exact RuleSet.mem_only.mpr ⟨hmem, hkept r.name (List.mem_map_of_mem hmem) hname⟩

theorem Repairs.only {kept : List String} (h : Repairs settings s removed)
    (hkept : ∀ n ∈ kept, n ∉ removed) : Satisfiable settings (s.only kept).rules := by
  refine Satisfiable.mono h fun r hr => ?_
  obtain ⟨hmem, hname⟩ := RuleSet.mem_only.mp hr
  exact RuleSet.mem_without.mpr ⟨hmem, hkept r.name hname⟩

theorem repairs_nil : Repairs settings s [] ↔ Satisfiable settings s.rules := by
  rw [Repairs]
  constructor <;> exact fun h => h.mono fun r hr => by simpa [RuleSet.mem_without] using hr

/-- Rules to leave out: the rest is feasible, and none of them can be spared. -/
structure IsRepair (settings : Settings Rat) (s : RuleSet Rat) (removed : List String) : Prop where
  sublist : removed.Sublist s.names
  repairs : Repairs settings s removed
  minimal : ∀ fewer ⊆ removed, ∀ n ∈ removed, n ∉ fewer → ¬ Repairs settings s fewer

/-- Nothing is left out exactly when the set is feasible. -/
theorem IsRepair.eq_nil_iff (h : IsRepair settings s removed) :
    removed = [] ↔ Satisfiable settings s.rules := by
  rw [← repairs_nil]
  constructor
  · rintro rfl
    exact h.repairs
  · intro hnil
    by_contra hne
    obtain ⟨n, hn⟩ := List.exists_mem_of_ne_nil _ hne
    exact h.minimal [] (List.nil_subset _) n hn List.not_mem_nil hnil

/-- From a smallest repair nothing can be spared. -/
theorem isRepair_of_least (hsublist : removed.Sublist s.names)
    (hrepairs : Repairs settings s removed)
    (hleast : ∀ fewer : List String, fewer.Sublist s.names → Repairs settings s fewer →
      removed.length ≤ fewer.length) : IsRepair settings s removed := by
  refine ⟨hsublist, hrepairs, fun fewer hsubset n hn hnot hfewer => ?_⟩
  -- written in the order of declaration, the fewer names are shorter than the removed ones
  let part := removed.filter (fewer.contains ·)
  have hlt : part.length < removed.length :=
    List.length_filter_lt_length_iff_exists.mpr ⟨n, hn, by simpa using hnot⟩
  have hpart : Repairs settings s part :=
    hfewer.mono fun m hm => List.mem_filter.mpr ⟨hsubset hm, by simpa using hm⟩
  exact absurd (hleast part (List.filter_sublist.trans hsublist) hpart) (not_le.mpr hlt)

/-- No rules of one of these numbers repair the set. -/
def Unrepaired (settings : Settings Rat) (s : RuleSet Rat) (sizes : List Nat) : Prop :=
  ∀ removed : List String, removed.Sublist s.names → removed.length ∈ sizes →
    ¬ Repairs settings s removed

/-- The first of the least repairs that have one of these sizes. -/
structure IsFirstRepair (settings : Settings Rat) (s : RuleSet Rat) (sizes : List Nat)
    (names : List String) : Prop where
  sublist : names.Sublist s.names
  size : names.length ∈ sizes
  repairs : Repairs settings s names
  first : ∀ removed : List String, removed.Sublist s.names → removed.length ∈ sizes →
    Repairs settings s removed → s.NotAfter names removed

section Sizes

variable {size : Nat} {sizes : List Nat} {names : List String} [DecidablePred (Repairs settings s)]

theorem unrepaired_of_find? (h : (combinations size s.names).find? (fun names =>
    decide (Repairs settings s names)) = none) : Unrepaired settings s [size] := by
  intro removed hremoved hlength
  have hfails := List.find?_eq_none.mp h removed
    (mem_combinations.mpr ⟨hremoved, List.mem_singleton.mp hlength⟩)
  simpa using hfails

/-- The subset of the first size that is found is the first of all. -/
theorem isFirstRepair_of_find? (hsize : ∀ n ∈ sizes, size < n)
    (h : (combinations size s.names).find? (fun names => decide (Repairs settings s names)) =
      some names) : IsFirstRepair settings s (size :: sizes) names := by
  obtain ⟨hmem, hrepairs, hbefore⟩ :=
    find?_first (pairwise_combinations (pairwise_idxOf s.distinct) size) h
  obtain ⟨hsublist, hlen⟩ := mem_combinations.mp hmem
  refine ⟨hsublist, List.mem_cons.mpr (.inl hlen), of_decide_eq_true hrepairs,
    fun removed hremoved hlength hrep => ?_⟩
  rcases List.mem_cons.mp hlength with hlength | hlength
  · refine ⟨(hlen.trans hlength.symm).le, fun _ => ?_⟩
    rcases hbefore removed (mem_combinations.mpr ⟨hremoved, hlength⟩)
      (decide_eq_true hrep) with rfl | hlt
    · exact le_rfl
    · exact hlt.le
  · exact RuleSet.notAfter_of_length_lt (hlen ▸ hsize _ hlength)

omit [DecidablePred (Repairs settings s)]

theorem unrepaired_cons : Unrepaired settings s (size :: sizes) ↔
    Unrepaired settings s [size] ∧ Unrepaired settings s sizes := by
  simp only [Unrepaired, List.mem_cons, List.not_mem_nil, or_false, or_imp, imp_and, forall_and]

/-- A size without repairs can be passed over. -/
theorem IsFirstRepair.cons (h : IsFirstRepair settings s sizes names)
    (hsize : Unrepaired settings s [size]) : IsFirstRepair settings s (size :: sizes) names := by
  refine ⟨h.sublist, List.mem_cons_of_mem _ h.size, h.repairs,
    fun removed hremoved hlength hrep => ?_⟩
  rcases List.mem_cons.mp hlength with hlength | hlength
  · exact absurd hrep (hsize removed hremoved (List.mem_singleton.mpr hlength))
  · exact h.first removed hremoved hlength hrep

end Sizes

/-- Some rules are feasible, and none of the refused ones can be added to them. -/
structure IsMaximal (settings : Settings Rat) (s : RuleSet Rat) (kept refused : List String) :
    Prop where
  satisfiable : Satisfiable settings (s.only kept).rules
  maximal : ∀ n ∈ refused, ¬ Satisfiable settings (s.only (n :: kept)).rules

theorem IsMaximal.not_mem {kept refused : List String} (h : IsMaximal settings s kept refused)
    {n : String} (hn : n ∈ refused) : n ∉ kept := fun hkept =>
  h.maximal n hn (h.satisfiable.mono
    (RuleSet.only_subset (List.cons_subset.mpr ⟨hkept, List.Subset.refl _⟩)))

/-- When all rules are kept or refused, the refused ones repair the set. -/
theorem IsMaximal.isRepair {kept refused : List String} (h : IsMaximal settings s kept refused)
    (hsublist : refused.Sublist s.names) (hall : ∀ n ∈ s.names, n ∉ refused → n ∈ kept) :
    IsRepair settings s refused := by
  refine ⟨hsublist, .of_only h.satisfiable hall, fun fewer hfewer n hn hnot hrepairs => ?_⟩
  refine h.maximal n hn (hrepairs.only (List.forall_mem_cons.mpr ⟨hnot, fun m hm hmem => ?_⟩))
  exact h.not_mem (hfewer hmem) hm

end Repairs

namespace Oracle

theorem first_eq {K α : Type} [Scalar K] (o : Oracle K) {test : α → Except (Error K) Bool}
    {passes : α → Bool} {items : List α} (h : ∀ a ∈ items, test a = .ok (passes a)) :
    o.first test items = .ok (items.find? passes) := by
  rw [first]
  split
  · clear * - h
    induction items with
    | nil => rfl
    | cons a items ih =>
      rw [List.findM?, h a List.mem_cons_self, Outcome.ok_bind, List.find?_cons]
      cases passes a
      · exact ih fun b hb => h b (List.mem_cons_of_mem a hb)
      · rfl
  · rw [Outcome.mapM_eq_map (g := fun a => (a, passes a)) fun a ha => by rw [h a ha]; rfl,
      Outcome.ok_bind, List.find?_map, Option.map_map]
    exact congrArg Except.ok Option.map_id_apply

variable {o : Oracle Rat} {L : Lexicon} {s : RuleSet Rat} (hsolver : o.solver.Exact o.settings)
  (hL : L.Apart) (hfits : ∀ r ∈ s.rules, r.Fits L)

include hsolver hL hfits

/-! ### Trying subsets -/

/-- Trying ascending sizes finds the least subset of one of these sizes that repairs the set. -/
theorem exists_removable {sizes : List Nat} (hsizes : sizes.Pairwise (· < ·)) :
    ∃ found, o.removable s sizes = .ok found ∧
      (∀ names ∈ found, IsFirstRepair o.settings s sizes names) ∧
      (found = none → Unrepaired o.settings s sizes) := by
  classical
  induction sizes with
  | nil => exact ⟨none, rfl, by simp, fun _ _ _ hlength => absurd hlength List.not_mem_nil⟩
  | cons size sizes ih =>
    obtain ⟨hsize, hsizes⟩ := List.pairwise_cons.mp hsizes
    have hfirst : o.first (fun names => o.feasible (s.without names).rules
          ("removing " ++ shownNames (K := Rat) names)) (combinations size s.names) =
        .ok ((combinations size s.names).find? fun names => decide (Repairs o.settings s names)) :=
      o.first_eq fun names _ => feasible_eq_decide hsolver hL
        (fun r hr => hfits r (RuleSet.mem_without.mp hr).1) _
    rw [removable, hfirst, Outcome.ok_bind]
    cases hfound : (combinations size s.names).find? fun names =>
        decide (Repairs o.settings s names) with
    | some names =>
      refine ⟨some names, rfl, ?_, fun h => by cases h⟩
      rintro _ ⟨⟩
      exact isFirstRepair_of_find? hsize hfound
    | none =>
      obtain ⟨found, hfound', hsome, hnone⟩ := ih hsizes
      have hskip : Unrepaired o.settings s [size] := unrepaired_of_find? hfound
      exact ⟨found, hfound', fun names hnames => (hsome names hnames).cons hskip,
        fun hn => unrepaired_cons.mpr ⟨hskip, hnone hn⟩⟩

/-! ### Dropping rules and taking them back -/

omit hfits in
theorem exists_relax {rules : List (Rule Rat)} (hfits : ∀ r ∈ rules, r.Fits L) :
    ∃ dropped active, o.relax rules = .ok (dropped, active) ∧ rules = dropped ++ active ∧
      Satisfiable o.settings active := by
  induction rules with
  | nil => exact ⟨[], [], rfl, rfl, satisfiable_nil _⟩
  | cons r rules ih =>
    rw [relax, feasible_eq hsolver hfits, Outcome.ok_bind]
    cases hverdict : o.verdict (r :: rules) "relaxing rules" with
    | true => exact ⟨[], r :: rules, rfl, rfl, (verdict_iff hsolver hL hfits _).mp hverdict⟩
    | false =>
      obtain ⟨dropped, active, hrelax, rfl, hactive⟩ := ih (List.forall_mem_cons.mp hfits).2
      refine ⟨r :: dropped, active, ?_, rfl, hactive⟩
      rw [if_neg Bool.false_ne_true, hrelax]
      rfl

/-- A rule that cannot be taken back cannot be added later either: what is active only grows. -/
theorem exists_takeBack {active : List String} {pending : List (Rule Rat)}
    (hactive : Satisfiable o.settings (s.only active).rules) (hnames : active ⊆ s.names)
    (hpending : pending ⊆ s.rules) :
    ∃ left kept, o.takeBack s active pending = .ok left ∧ left.Sublist (pending.map (·.name)) ∧
      active ⊆ kept ∧ (∀ r ∈ pending, r.name ∉ left → r.name ∈ kept) ∧
      IsMaximal o.settings s kept left := by
  induction pending generalizing active with
  | nil => exact ⟨[], active, rfl, .slnil, List.Subset.refl _, by simp, hactive, by simp⟩
  | cons r rest ih =>
    obtain ⟨hr, hrest⟩ := List.cons_subset.mp hpending
    have hfitsTrial : ∀ q ∈ (s.only (r.name :: active)).rules, q.Fits L :=
      fun q hq => hfits q (RuleSet.mem_only.mp hq).1
    rw [takeBack, feasible_eq hsolver hfitsTrial, Outcome.ok_bind]
    cases hverdict : o.verdict (s.only (r.name :: active)).rules
        ("re-enabling '" ++ r.name ++ "'") with
    | true =>
      have htrial : ∀ n ∈ r.name :: active, n ∈ (s.only (r.name :: active)).names := fun n hn =>
        RuleSet.mem_names_only.mpr ⟨List.cons_subset.mpr ⟨List.mem_map_of_mem hr, hnames⟩ hn, hn⟩
      have hsat : Satisfiable o.settings (s.only (s.only (r.name :: active)).names).rules :=
        ((verdict_iff hsolver hL hfitsTrial _).mp hverdict).mono
          (RuleSet.only_names_subset fun q hq => (RuleSet.mem_only.mp hq).1)
      obtain ⟨left, kept, hleft, hsublist, hkept, hall, hmaximal⟩ :=
        ih hsat (fun n hn => (RuleSet.mem_names_only.mp hn).1) hrest
      refine ⟨left, kept, hleft, hsublist.cons _, fun n hn => ?_, ?_, hmaximal⟩
      · exact hkept (htrial n (List.mem_cons_of_mem _ hn))
      · exact List.forall_mem_cons.mpr
          ⟨fun _ => hkept (htrial _ List.mem_cons_self), hall⟩
    | false =>
      obtain ⟨left, kept, hleft, hsublist, hkept, hall, hmaximal⟩ := ih hactive hnames hrest
      refine ⟨r.name :: left, kept, ?_, hsublist.cons_cons _, hkept, ?_, hmaximal.satisfiable, ?_⟩
      · rw [if_neg Bool.false_ne_true, hleft]
        rfl
      · refine List.forall_mem_cons.mpr ⟨fun h => absurd List.mem_cons_self h, fun q hq hnot => ?_⟩
        exact hall q hq fun hmem => hnot (List.mem_cons_of_mem _ hmem)
      · refine List.forall_mem_cons.mpr ⟨fun hsat => ?_, hmaximal.maximal⟩
        rw [verdict_eq_false_iff hsolver hL hfitsTrial] at hverdict
        exact hverdict (hsat.mono (RuleSet.only_subset (List.cons_subset_cons _ hkept)))

/-- What is left of the dropped rules repairs the set. -/
theorem exists_trim : ∃ left, o.trim s = .ok left ∧ IsRepair o.settings s left := by
  obtain ⟨dropped, active, hrelax, hrules, hactive⟩ := exists_relax hsolver hL hfits
  have hnames : s.names = dropped.map (·.name) ++ active.map (·.name) := by
    rw [RuleSet.names, hrules, List.map_append]
  have hsat : Satisfiable o.settings (s.only (active.map (·.name))).rules :=
    hactive.mono (RuleSet.only_names_subset (hrules ▸ List.subset_append_right _ _))
  have hdropped : dropped ⊆ s.rules := hrules ▸ List.subset_append_left _ _
  obtain ⟨left, kept, hleft, hsublist, hkept, hall, hmaximal⟩ :=
    exists_takeBack hsolver hL hfits hsat (hnames ▸ List.subset_append_right _ _) hdropped
  refine ⟨left, ?_, hmaximal.isRepair ?_ fun n hn hnot => ?_⟩
  · rw [trim, hrelax]
    exact hleft
  · exact hnames ▸ hsublist.trans (List.sublist_append_left _ _)
  · rw [hnames, List.mem_append] at hn
    rcases hn with hn | hn
    · obtain ⟨r, hr, rfl⟩ := List.mem_map.mp hn
      exact hall r hr hnot
    · exact hkept hn

/-! ### The culprits of a set -/

omit hsolver hL hfits in
theorem mem_sizes {n count : Nat} : n ∈ (List.range count).map (· + 1) ↔ n ≠ 0 ∧ n ≤ count := by
  rw [List.mem_map]
  constructor
  · rintro ⟨m, hm, rfl⟩
    exact ⟨m.succ_ne_zero, List.mem_range.mp hm⟩
  · rintro ⟨hne, hle⟩
    obtain ⟨m, rfl⟩ := Nat.exists_eq_succ_of_ne_zero hne
    exact ⟨m, List.mem_range.mpr hle, rfl⟩

/-- The culprits repair the set. If so many rules as may be removed together are enough, they are
the first of the least repairs. -/
theorem exists_repair (hlimit : o.settings.maxRemovals.IsInteger) :
    ∃ culprits, o.culprits s = .ok culprits ∧ IsRepair o.settings s culprits ∧
      ∀ few : List String, few.Sublist s.names →
        o.settings.maxRemovals.lessThan few.length = false →
        Repairs o.settings s few → ∀ removed : List String, removed.Sublist s.names →
          Repairs o.settings s removed → s.NotAfter culprits removed := by
  rw [culprits, isFeasible_eq hsolver hfits, Outcome.ok_bind]
  cases hverdict : o.verdict s.rules "checking feasibility" with
  | true =>
    rw [verdict_iff hsolver hL hfits, ← repairs_nil] at hverdict
    exact ⟨[], rfl, ⟨List.nil_sublist _, hverdict, by simp⟩,
      fun _ _ _ _ removed _ _ => RuleSet.nil_notAfter removed⟩
  | false =>
    rw [verdict_eq_false_iff hsolver hL hfits, ← repairs_nil] at hverdict
    obtain ⟨most, hmost⟩ := Settings.exists_removals hlimit s.size
    -- leaving out nothing does not repair the set, so only sizes from one on matter
    have hsizes : ∀ removed : List String, removed.length ≤ most →
        Repairs o.settings s removed → removed.length ∈ (List.range most).map (· + 1) := by
      refine fun removed hlength hrepairs => mem_sizes.mpr ⟨fun hzero => hverdict ?_, hlength⟩
      rwa [List.eq_nil_of_length_eq_zero hzero] at hrepairs
    obtain ⟨found, hfound, hsome, hnone⟩ := exists_removable hsolver hL hfits
      (List.pairwise_lt_range.map (· + 1) fun _ _ => Nat.succ_lt_succ)
    rw [if_neg Bool.false_ne_true, hmost, Outcome.ok_bind, hfound, Outcome.ok_bind]
    cases found with
    | some names =>
      have hnames := hsome names rfl
      have hleast : ∀ removed : List String, removed.Sublist s.names →
          Repairs o.settings s removed → s.NotAfter names removed := by
        intro removed hremoved hrep
        by_cases hlength : removed.length ≤ most
        · exact hnames.first removed hremoved (hsizes removed hlength hrep) hrep
        · exact RuleSet.notAfter_of_length_lt
            ((mem_sizes.mp hnames.size).2.trans_lt (not_le.mp hlength))
      exact ⟨names, rfl,
        isRepair_of_least hnames.sublist hnames.repairs fun fewer hfewer hrep =>
          (hleast fewer hfewer hrep).1,
        fun _ _ _ _ => hleast⟩
    | none =>
      obtain ⟨left, hleft, hrepair⟩ := exists_trim hsolver hL hfits
      refine ⟨left, hleft, hrepair, fun few hfew hallowed hrep => absurd hrep ?_⟩
      have hsize : few.length ≤ s.size := hfew.length_le.trans (List.length_map _).le
      exact hnone rfl few hfew (hsizes few (Settings.le_removals hmost hsize hallowed) hrep)

end Oracle

/-- **The culprits of a set are rules whose removal makes it feasible, and no part of them would be
enough.** They are none exactly when the set is feasible. If some rules repair the set that are no
more than the settings let be removed together, then the culprits are the first of the least sets
of rules that do.

The variables of the set's program must have different names, as they have unless labels clash. The
limit on the rules that are removed together is an integer, as settings declare it. -/
theorem Oracle.exists_culprits (o : Oracle Rat) (s : RuleSet Rat) (hrules : KindConsistent s.rules)
    (hnames : ∀ p, Program.ofRules s.rules o.settings = .ok p → (p.vars.map (·.name)).Nodup)
    (hsolver : o.solver.Exact o.settings) (hlimit : o.settings.maxRemovals.IsInteger) :
    ∃ culprits, o.culprits s = .ok culprits ∧
      o.makeFeasible s = .ok (s.without culprits) ∧
      o.isFeasible (s.without culprits) = .ok true ∧
      culprits.Sublist s.names ∧
      (culprits = [] ↔ o.isFeasible s = .ok true) ∧
      (∀ fewer ⊆ culprits, ∀ n ∈ culprits, n ∉ fewer →
        o.isFeasible (s.without fewer) = .ok false) ∧
      ∀ few : List String, few.Sublist s.names →
        o.settings.maxRemovals.lessThan few.length = false →
        o.isFeasible (s.without few) = .ok true → ∀ removed : List String,
          removed.Sublist s.names → o.isFeasible (s.without removed) = .ok true →
            s.NotAfter culprits removed := by
  obtain ⟨L, hL, hfits, -⟩ := hrules.exists_apart hnames
  have hwithout : ∀ removed, ∀ r ∈ (s.without removed).rules, r.Fits L := fun removed r hr =>
    hfits r (RuleSet.mem_without.mp hr).1
  have hiff : ∀ removed, o.isFeasible (s.without removed) = .ok true ↔
      Repairs o.settings s removed := fun removed =>
    isFeasible_iff hsolver hL (hwithout removed)
  obtain ⟨culprits, hculprits, hrepair, hfirst⟩ := exists_repair hsolver hL hfits hlimit
  refine ⟨culprits, hculprits, ?_, (hiff _).mpr hrepair.repairs, hrepair.sublist, ?_, ?_, ?_⟩
  · rw [makeFeasible, hculprits]
    rfl
  · rw [hrepair.eq_nil_iff, isFeasible_iff hsolver hL hfits]
  · intro fewer hfewer n hn hnot
    rw [isFeasible_eq hsolver (hwithout fewer), Except.ok.injEq,
      verdict_eq_false_iff hsolver hL (hwithout fewer)]
    exact hrepair.minimal fewer hfewer n hn hnot
  · simp only [hiff]
    exact hfirst

/-- When one rule may be removed and two have to be, rules are dropped and taken back. -/
theorem Oracle.exists_culprits_two_conflicts :
    let a : Rule Rat := ⟨"a", .atom (.linear (.canonical [(⟨"x", by decide⟩, 1)] .ge 1)), none,
      by decide +kernel, by simp, none⟩
    let b : Rule Rat := ⟨"b", .atom (.linear (.canonical [(⟨"x", by decide⟩, 1)] .le 0)), none,
      by decide +kernel, by simp, none⟩
    let c : Rule Rat := ⟨"c", .atom (.linear (.canonical [(⟨"y", by decide⟩, 1)] .ge 1)), none,
      by decide +kernel, by simp, none⟩
    let d : Rule Rat := ⟨"d", .atom (.linear (.canonical [(⟨"y", by decide⟩, 1)] .le 0)), none,
      by decide +kernel, by simp, none⟩
    let s : RuleSet Rat := ⟨[a, b, c, d], by decide⟩
    let solver := Solver.hinted [[("num[y]", 0)], [("num[x]", 1), ("num[y]", 0)]]
    KindConsistent s.rules ∧ ∃ settings,
      Settings.make [(.text "max_removals", .int 1)] = .ok settings ∧
      (∃ p, Program.ofRules s.rules settings = .ok p ∧ (p.vars.map (·.name)).Nodup) ∧
      solver.Exact settings ∧ settings.maxRemovals.IsInteger ∧ ∃ culprits,
        Oracle.culprits ⟨solver, settings⟩ s = .ok culprits ∧
        Oracle.makeFeasible ⟨solver, settings⟩ s = .ok (s.without culprits) ∧
        Oracle.isFeasible ⟨solver, settings⟩ (s.without culprits) = .ok true ∧
        culprits = ["b", "c"] ∧
        ∀ fewer ⊆ culprits, ∀ n ∈ culprits, n ∉ fewer →
          Oracle.isFeasible ⟨solver, settings⟩ (s.without fewer) = .ok false := by
  intro a b c d s solver
  have hkinds : KindConsistent s.rules := by decide +kernel
  have hsome : (Settings.make (K := Rat) [(.text "max_removals", .int 1)]).toOption.any
      (fun settings =>
        decide settings.maxRemovals.IsInteger &&
          (decide ((Oracle.culprits ⟨solver, settings⟩ s).toOption = some ["b", "c"]) &&
            (Program.ofRules s.rules settings).toOption.any fun p =>
              decide (p.vars.map (·.name)).Nodup)) = true := by
    decide +kernel
  obtain ⟨settings, hsettings, hall⟩ := Outcome.exists_of_any_toOption hsome
  rw [Bool.and_eq_true, Bool.and_eq_true, decide_eq_true_eq, decide_eq_true_eq] at hall
  have hlimit : settings.maxRemovals.IsInteger := hall.1
  have hculprits := Outcome.eq_ok_of_toOption hall.2.1
  obtain ⟨p, hp, hnames⟩ := Outcome.exists_of_any_toOption hall.2.2
  have hsolver : solver.Exact settings := Solver.hinted_exact _ settings
  obtain ⟨culprits, heq, hmake, hfeasible, -, -, hminimal, -⟩ :=
    Oracle.exists_culprits ⟨solver, settings⟩ s hkinds (fun q hq => by
      obtain rfl := Except.ok.inj (hp.symm.trans hq)
      exact of_decide_eq_true hnames) hsolver hlimit
  exact ⟨hkinds, settings, hsettings, ⟨p, hp, of_decide_eq_true hnames⟩, hsolver, hlimit, culprits,
    heq, hmake, hfeasible, Except.ok.inj (heq.symm.trans hculprits), hminimal⟩

end RuleAudit
