import RuleAudit.Program.Build
import RuleAudit.Proofs.Dnf.Reduce

/-!
# Kinds and labels in use

Two tables are filled while the normal forms of rules are read: the kind of every variable, and
the labels of every categorical one. Both are exact (`Usage.covers_ofRules`): a variable is in the
table of kinds with a kind exactly when a clause uses it so, and a label is in the table of labels
exactly when a clause on its variable mentions it. Reading succeeds exactly when the rules agree
on the kind of every variable (`Usage.exists_ofRules_iff`).
-/

namespace RuleAudit

variable {K : Type} [Scalar K]

/-! ### Tables of kinds -/

/-- The names that are used with a kind. -/
def namesOf (kind : VarKind) (uses : List (String × VarKind)) : List String :=
  (uses.filter (·.2 = kind)).map (·.1)

theorem mem_namesOf {kind : VarKind} {uses : List (String × VarKind)} {n : String} :
    n ∈ namesOf kind uses ↔ (n, kind) ∈ uses := by
  rw [namesOf, List.mem_map]
  constructor
  · rintro ⟨u, hu, rfl⟩
    obtain ⟨hmem, hk⟩ := List.mem_filter.mp hu
    obtain rfl := of_decide_eq_true hk
    exact hmem
  · exact fun hmem => ⟨_, List.mem_filter.mpr ⟨hmem, decide_eq_true rfl⟩, rfl⟩

/-- A table has exactly the given entries, and no name twice. -/
structure Tabulates (table uses : List (String × VarKind)) : Prop where
  nodup : (table.map (·.1)).Nodup
  mem_iff : ∀ u, u ∈ table ↔ u ∈ uses

namespace Tabulates

variable {table uses uses' : List (String × VarKind)} {name : String} {kind : VarKind}

theorem empty : Tabulates [] [] :=
  ⟨List.nodup_nil, fun _ => Iff.rfl⟩

theorem congr (h : Tabulates table uses) (hu : ∀ u, u ∈ uses ↔ u ∈ uses') :
    Tabulates table uses' :=
  ⟨h.nodup, fun u => (h.mem_iff u).trans (hu u)⟩

theorem get?_eq_some (h : Tabulates table uses) :
    Assoc.get? name table = some kind ↔ (name, kind) ∈ uses := by
  rw [← h.mem_iff]
  exact ⟨Assoc.mem_of_get?, Assoc.get?_of_mem h.nodup⟩

/-- A name that is in use has one kind. -/
theorem kind_unique (h : Tabulates table uses) {kind' : VarKind} (hk : (name, kind) ∈ uses)
    (hk' : (name, kind') ∈ uses) : kind = kind' :=
  Option.some.inj ((h.get?_eq_some.mpr hk).symm.trans (h.get?_eq_some.mpr hk'))

/-- What is in a table has a kind for every variable. -/
theorem exists_agrees (h : Tabulates table uses) : ∃ kinds, Agrees kinds uses :=
  ⟨fun n => (Assoc.get? n table).getD .numeric, fun u hu => by
    simp only [h.get?_eq_some.mpr hu, Option.getD_some]⟩

/-- A name that is not in the table goes to its end. -/
theorem enter (h : Tabulates table uses) (hn : Assoc.get? name table = none) :
    Tabulates (table ++ [(name, kind)]) (uses ++ [(name, kind)]) := by
  refine ⟨?_, fun u => ?_⟩
  · rw [List.map_append, List.nodup_append]
    refine ⟨h.nodup, List.nodup_singleton _, fun a ha b hb => ?_⟩
    obtain rfl := List.mem_singleton.mp hb
    rintro rfl
    exact Assoc.get?_eq_none.mp hn ha
  · rw [List.mem_append, List.mem_append, h.mem_iff]

/-- A name that is in the table with the same kind changes nothing. -/
theorem skip (h : Tabulates table uses) (hn : Assoc.get? name table = some kind) :
    Tabulates table (uses ++ [(name, kind)]) := by
  refine h.congr fun u => ?_
  rw [List.mem_append, List.mem_singleton, or_iff_left_of_imp]
  rintro rfl
  exact h.get?_eq_some.mp hn

end Tabulates

/-! ### Reading clauses -/

namespace Census

variable {table uses : List (String × VarKind)} {census next : Census} {rule : Datum K}
  {c : Clause K} {kind : VarKind} {name : String}

theorem tabulates_registerVar {site : Site K} {after : List (String × VarKind)}
    (h : Tabulates table uses) (hr : registerVar site kind table name = .ok after) :
    Tabulates after (uses ++ [(name, kind)]) := by
  rw [registerVar] at hr
  split at hr
  · next hnone =>
    obtain rfl := Except.ok.inj hr
    exact h.enter hnone
  · next seen hsome =>
    split at hr
    · next hk =>
      obtain rfl := Except.ok.inj hr
      exact h.skip (hk ▸ hsome)
    · cases hr

theorem exists_registerVar {site : Site K} {kinds : String → VarKind} (h : Tabulates table uses)
    (hu : Agrees kinds (uses ++ [(name, kind)])) :
    ∃ after, registerVar site kind table name = .ok after := by
  rw [registerVar]
  split
  · exact ⟨_, rfl⟩
  · next seen hsome =>
    have hseen : kinds name = seen :=
      hu _ (List.mem_append_left _ (h.get?_eq_some.mp hsome))
    have hkind : kinds name = kind :=
      hu _ (List.mem_append_right _ (List.mem_singleton_self (name, kind)))
    rw [if_pos (hseen.symm.trans hkind)]
    exact ⟨_, rfl⟩

/-- Registering a clause enters its variables one after the other. -/
theorem register_eq (hc : c.IsProper) :
    census.register rule c = c.uses.foldlM (fun table u =>
      registerVar ⟨rule, some census.next⟩ u.2 table u.1) census.kinds >>= fun table =>
        .ok ⟨census.next + 1, table⟩ := by
  cases c with
  | linear c => rw [Clause.uses, List.foldlM_map]; rfl
  | membership c => rfl
  | foreign d => cases hc

theorem isProper_of_register (h : census.register rule c = .ok next) : c.IsProper := by
  cases c with
  | linear c => exact trivial
  | membership c => exact trivial
  | foreign d => cases h

theorem tabulates_register (h : Tabulates census.kinds uses)
    (hr : census.register rule c = .ok next) : Tabulates next.kinds (uses ++ c.uses) := by
  rw [register_eq (isProper_of_register hr)] at hr
  obtain ⟨after, hafter, hr⟩ := Outcome.bind_eq_ok.mp hr
  obtain rfl := Except.ok.inj hr
  refine Outcome.foldlM_induction (fun seen table => Tabulates table (uses ++ seen)) hafter
    (by rwa [List.append_nil]) fun seen u b c hb hc => ?_
  rw [← List.append_assoc]
  exact tabulates_registerVar hb hc

/-- A clause that uses every variable as before can be registered. -/
theorem exists_register {kinds : String → VarKind} (h : Tabulates census.kinds uses)
    (hc : c.IsProper) (hk : Agrees kinds (uses ++ c.uses)) :
    ∃ next, census.register rule c = .ok next := by
  rw [register_eq hc]
  obtain ⟨after, hafter, -⟩ : ∃ after, (c.uses.foldlM (fun table u =>
      registerVar (K := K) ⟨rule, some census.next⟩ u.2 table u.1) census.kinds) = .ok after ∧
        Tabulates after (uses ++ c.uses) := by
    refine Outcome.exists_foldlM (fun seen table => Tabulates table (uses ++ seen))
      (by rwa [List.append_nil]) fun seen u table hseen htable => ?_
    have hagrees : Agrees kinds (uses ++ seen ++ [u]) := by
      rw [List.append_assoc]
      rw [agrees_append] at hk ⊢
      exact ⟨hk.1, hk.2.mono hseen.subset⟩
    obtain ⟨after, hafter⟩ : ∃ after,
        registerVar (K := K) ⟨rule, some census.next⟩ u.2 table u.1 = .ok after :=
      exists_registerVar htable hagrees
    refine ⟨after, hafter, ?_⟩
    rw [← List.append_assoc]
    exact tabulates_registerVar htable hafter
  exact ⟨_, by rw [hafter]; rfl⟩

end Census

/-! ### Reading normal forms -/

/-- A clause uses its variables with given kinds. -/
def Clause.HasKinds (kinds : String → VarKind) (c : Clause K) : Prop :=
  c.IsProper ∧ Agrees kinds c.uses

theorem agrees_flatMap_uses {kinds : String → VarKind} {clauses : List (Clause K)} :
    Agrees kinds (clauses.flatMap Clause.uses) ↔ ∀ c ∈ clauses, Agrees kinds c.uses := by
  simp only [Agrees, List.forall_mem_flatMap]

/-- Clauses that use every variable with one kind can be registered one after the other. -/
theorem Census.exists_foldlM_register {rule : Datum K} {kinds : String → VarKind}
    {clauses : List (Clause K)} (h : ∀ c ∈ clauses, c.HasKinds kinds) :
    ∃ census, clauses.foldlM (register rule) .start = .ok census := by
  obtain ⟨census, hcensus, -⟩ : ∃ census, clauses.foldlM (register rule) .start = .ok census ∧
      Tabulates census.kinds (clauses.flatMap Clause.uses) := by
    refine Outcome.exists_foldlM
      (fun seen (census : Census) => Tabulates census.kinds (seen.flatMap Clause.uses)) .empty
      fun seen c census hseen htable => ?_
    have hsubset := hseen.subset
    have hc : c.HasKinds kinds := h c (hsubset (by simp))
    have hagrees : Agrees kinds (seen.flatMap Clause.uses ++ c.uses) := by
      refine agrees_append.mpr ⟨agrees_flatMap_uses.mpr fun b hb => ?_, hc.2⟩
      exact (h b (hsubset (List.mem_append_left _ hb))).2
    obtain ⟨next, hnext⟩ : ∃ next, census.register rule c = .ok next :=
      exists_register htable hc.1 hagrees
    refine ⟨next, hnext, ?_⟩
    rw [List.flatMap_append, List.flatMap_singleton]
    exact tabulates_register htable hnext
  exact ⟨census, hcensus⟩

namespace Dnf

variable {d : Dnf K} {rule : Datum K} {P : Clause K → Prop}

theorem within_iff_flatten : d.Within P ↔ ∀ c ∈ d.flatten, P c := by
  simp only [Within, List.mem_flatten, forall_exists_index, and_imp]
  exact ⟨fun h c term ht hc => h term ht c hc, fun h term ht c hc => h c term ht hc⟩

/-- The table of a normal form has exactly the variables of its clauses. -/
theorem tabulates_kinds {table : List (String × VarKind)} (h : d.kinds rule = .ok table) :
    Tabulates table (d.flatten.flatMap Clause.uses) ∧ d.Within Clause.IsProper := by
  obtain ⟨census, hcensus, h⟩ := Outcome.bind_eq_ok.mp h
  obtain rfl := Except.ok.inj h
  constructor
  · refine Outcome.foldlM_induction
      (fun seen census => Tabulates census.kinds (seen.flatMap Clause.uses)) hcensus .empty
      fun seen c census next hseen hnext => ?_
    rw [List.flatMap_append, List.flatMap_singleton]
    exact Census.tabulates_register hseen hnext
  · refine within_iff_flatten.mpr fun c hc => ?_
    obtain ⟨before, after, hreg⟩ := Outcome.exists_of_foldlM_eq_ok hcensus hc
    exact Census.isProper_of_register hreg

theorem exists_kinds {kinds : String → VarKind} (h : d.Within (Clause.HasKinds kinds)) :
    ∃ table, d.kinds rule = .ok table := by
  obtain ⟨census, hcensus⟩ := Census.exists_foldlM_register (within_iff_flatten.mp h)
  exact ⟨census.kinds, by rw [Dnf.kinds, hcensus]; rfl⟩

end Dnf

section Merge

variable {clash : Clash} {rule : Datum K}

/-- Merging enters the entries of one table into the other. -/
theorem tabulates_mergeKinds {entries table uses after : List (String × VarKind)}
    (h : Tabulates table uses) (hm : mergeKinds clash rule table entries = .ok after) :
    Tabulates after (uses ++ entries) := by
  induction entries generalizing table uses with
  | nil =>
    obtain rfl := Except.ok.inj hm
    rwa [List.append_nil]
  | cons e entries ih =>
    rw [List.append_cons]
    rw [mergeKinds] at hm
    split at hm
    · next hnone => exact ih (h.enter hnone) hm
    · next seen hsome =>
      split at hm
      · next hk => exact ih (h.skip (hk ▸ hsome)) hm
      · cases hm

theorem exists_mergeKinds {entries table uses : List (String × VarKind)} {kinds : String → VarKind}
    (h : Tabulates table uses) (hk : Agrees kinds (uses ++ entries)) :
    ∃ after, mergeKinds clash rule table entries = .ok after := by
  induction entries generalizing table uses with
  | nil => exact ⟨table, rfl⟩
  | cons e entries ih =>
    rw [List.append_cons] at hk
    rw [mergeKinds]
    split
    · next hnone => exact ih (h.enter hnone) hk
    · next seen hsome =>
      have hseen : kinds e.1 = seen :=
        (agrees_append.mp (agrees_append.mp hk).1).1 _ (h.get?_eq_some.mp hsome)
      have hkind : kinds e.1 = e.2 :=
        (agrees_append.mp (agrees_append.mp hk).1).2 e (List.mem_singleton_self e)
      have heq : seen = e.2 := hseen.symm.trans hkind
      rw [if_pos heq]
      exact ih (h.skip (heq ▸ hsome)) hk

end Merge

/-! ### Tables of labels -/

section Labels

/-- A clause that mentions a label of a variable. -/
def Clause.Mentions (v l : String) : Clause K → Prop
  | membership c => c.subject = v ∧ l ∈ c.labels
  | _ => False

variable {labels : List (String × List String)} {v l : String}

/-- The labels of a variable in a table. -/
def labelsOf (labels : List (String × List String)) (v : String) : List String :=
  (Assoc.get? v labels).getD []

private theorem mem_foldl_insertLabel {given known : List String} :
    l ∈ given.foldl (fun ls l => MembershipClause.insertLabel l ls) known ↔
      l ∈ known ∨ l ∈ given := by
  induction given generalizing known with
  | nil => simp
  | cons g given ih =>
    rw [List.foldl_cons, ih, MembershipClause.mem_insertLabel, List.mem_cons, or_assoc,
      or_left_comm]

private theorem foldl_insertLabel_ascending (given : List String) {known : List String}
    (h : known.Pairwise (· < ·)) :
    (given.foldl (fun ls l => MembershipClause.insertLabel l ls) known).Pairwise (· < ·) := by
  induction given generalizing known with
  | nil => exact h
  | cons g given ih => exact ih (MembershipClause.insertLabel_ascending g h)

/-- A membership clause adds its labels to those of its variable. -/
theorem mem_labelsOf_addLabels {c : Clause K} :
    l ∈ labelsOf (RuleSet.addLabels labels c) v ↔ l ∈ labelsOf labels v ∨ c.Mentions v l := by
  cases c with
  | membership c =>
    rw [RuleSet.addLabels, labelsOf, Assoc.get?_put, Clause.Mentions]
    by_cases hv : c.subject = v
    · rw [if_pos (by simpa using hv), Option.getD_some, mem_foldl_insertLabel, labelsOf, hv]
      simp
    · rw [if_neg (by simpa using hv), labelsOf]
      simp [hv]
  | linear c => simp [RuleSet.addLabels, Clause.Mentions]
  | foreign d => simp [RuleSet.addLabels, Clause.Mentions]

theorem labelsOf_addLabels_ascending {c : Clause K}
    (h : ∀ v, (labelsOf labels v).Pairwise (· < ·)) (v : String) :
    (labelsOf (RuleSet.addLabels labels c) v).Pairwise (· < ·) := by
  cases c with
  | membership c =>
    rw [RuleSet.addLabels, labelsOf, Assoc.get?_put]
    split
    · exact foldl_insertLabel_ascending _ (h c.subject)
    · exact h v
  | linear c => exact h v
  | foreign d => exact h v

/-- Every variable has exactly the labels that a clause mentions, ascending. -/
structure Lists (labels : List (String × List String)) (clauses : List (Clause K)) : Prop where
  ascending : ∀ v, (labelsOf labels v).Pairwise (· < ·)
  mem_iff : ∀ v l, l ∈ labelsOf labels v ↔ ∃ c ∈ clauses, c.Mentions v l

theorem Lists.empty : Lists [] ([] : List (Clause K)) :=
  ⟨fun _ => .nil, fun v l => by simp [labelsOf]⟩

theorem Lists.foldl_addLabels {clauses more : List (Clause K)} (h : Lists labels clauses) :
    Lists (more.foldl RuleSet.addLabels labels) (clauses ++ more) := by
  induction more generalizing labels clauses with
  | nil => rwa [List.append_nil]
  | cons c more ih =>
    rw [List.append_cons]
    refine ih ⟨labelsOf_addLabels_ascending h.ascending, fun v l => ?_⟩
    rw [mem_labelsOf_addLabels, h.mem_iff]
    simp only [List.mem_append, List.mem_singleton, or_and_right, exists_or, exists_eq_left]

end Labels

/-! ### Rules -/

/-- The clauses of the normal form of a rule; none when it has no normal form. -/
def Rule.clauses (r : Rule K) : List (Clause K) :=
  (r.dnf.toOption.getD []).flatten

theorem Rule.clauses_eq {r : Rule K} {d : Dnf K} (h : r.dnf = .ok d) : r.clauses = d.flatten := by
  rw [clauses, h]
  rfl

/-- Every rule has a normal form of proper clauses, and they agree on the kind of every variable. -/
def KindConsistent (rules : List (Rule K)) : Prop :=
  ∃ kinds : String → VarKind, ∀ r ∈ rules, ∃ d, r.dnf = .ok d ∧ d.Within (Clause.HasKinds kinds)

theorem KindConsistent.exists_dnf {rules : List (Rule K)} (h : KindConsistent rules) {r : Rule K}
    (hr : r ∈ rules) : ∃ d, r.dnf = .ok d ∧ d.Within Clause.IsProper := by
  obtain ⟨kinds, hkinds⟩ := h
  obtain ⟨d, hd, hwithin⟩ := hkinds r hr
  exact ⟨d, hd, fun term hterm c hc => (hwithin term hterm c hc).1⟩

theorem agrees_of_within {rules : List (Rule K)} {kinds : String → VarKind}
    (h : ∀ r ∈ rules, ∃ d, r.dnf = .ok d ∧ d.Within (Clause.HasKinds kinds)) :
    Agrees kinds ((rules.flatMap Rule.clauses).flatMap Clause.uses) := by
  refine agrees_flatMap_uses.mpr fun c hc => ?_
  obtain ⟨r, hr, hcr⟩ := List.mem_flatMap.mp hc
  obtain ⟨d, hd, hk⟩ := h r hr
  rw [Rule.clauses_eq hd] at hcr
  exact (Dnf.within_iff_flatten.mp hk c hcr).2

/-- The kinds of a rule that agrees with a table can be merged into it. -/
theorem Rule.exists_mergeKinds {r : Rule K} {d : Dnf K} (clash : Clash) {kinds : String → VarKind}
    {table uses : List (String × VarKind)} (h : Tabulates table uses) (hu : Agrees kinds uses)
    (hd : r.dnf = .ok d) (hk : d.Within (Clause.HasKinds kinds)) :
    ∃ entries after, r.kinds = .ok entries ∧
      mergeKinds (K := K) clash (.text r.name) table entries = .ok after ∧
      Tabulates after (uses ++ r.clauses.flatMap Clause.uses) := by
  obtain ⟨entries, hentries⟩ : ∃ entries, d.kinds (.text r.name) = .ok entries :=
    Dnf.exists_kinds hk
  have htab := (Dnf.tabulates_kinds hentries).1
  have hagrees : Agrees kinds (uses ++ entries) := by
    refine agrees_append.mpr ⟨hu, fun e he => ?_⟩
    have hmem := (htab.mem_iff e).mp he
    exact agrees_flatMap_uses.mpr (fun c hc => (Dnf.within_iff_flatten.mp hk c hc).2) e hmem
  obtain ⟨after, hafter⟩ : ∃ after,
      mergeKinds (K := K) clash (.text r.name) table entries = .ok after :=
    RuleAudit.exists_mergeKinds h hagrees
  refine ⟨entries, after, by rw [Rule.kinds, hd]; exact hentries, hafter, ?_⟩
  refine (tabulates_mergeKinds h hafter).congr fun e => ?_
  rw [List.mem_append, List.mem_append, htab.mem_iff, clauses_eq hd]

/-- The table of a set has exactly the variables of its rules. -/
theorem RuleSet.tabulates_kinds {s : RuleSet K} {table : List (String × VarKind)}
    (h : s.kinds = .ok table) :
    Tabulates table ((s.rules.flatMap Rule.clauses).flatMap Clause.uses) := by
  refine Outcome.foldlM_induction (fun seen (table : List (String × VarKind)) =>
    Tabulates table ((seen.flatMap Rule.clauses).flatMap Clause.uses)) h .empty
    fun seen r before after hseen hafter => ?_
  obtain ⟨entries, hentries, hafter⟩ := Outcome.bind_eq_ok.mp hafter
  obtain ⟨d, hd, hentries⟩ := Outcome.bind_eq_ok.mp hentries
  have htab := (Dnf.tabulates_kinds hentries).1
  rw [List.flatMap_append, List.flatMap_append, List.flatMap_singleton, Rule.clauses_eq hd]
  refine (tabulates_mergeKinds hseen hafter).congr fun e => ?_
  rw [List.mem_append, List.mem_append, htab.mem_iff]

/-- A set of rules that agree on the kind of every variable has a table of all variables. -/
theorem RuleSet.exists_kinds {s : RuleSet K} (h : KindConsistent s.rules) :
    ∃ table, s.kinds = .ok table ∧
      Tabulates table ((s.rules.flatMap Rule.clauses).flatMap Clause.uses) := by
  obtain ⟨kinds, hrules⟩ := h
  refine Outcome.exists_foldlM (fun seen (table : List (String × VarKind)) =>
    Tabulates table ((seen.flatMap Rule.clauses).flatMap Clause.uses)) .empty
    fun seen r table hseen htable => ?_
  have hsubset := hseen.subset
  obtain ⟨d, hd, hk⟩ := hrules r (hsubset (by simp))
  have hagrees : Agrees kinds ((seen.flatMap Rule.clauses).flatMap Clause.uses) :=
    agrees_of_within fun r hr => hrules r (hsubset (List.mem_append_left _ hr))
  obtain ⟨entries, after, hentries, hafter, htab⟩ :=
    Rule.exists_mergeKinds .earlierRules htable hagrees hd hk
  refine ⟨after, by rw [hentries, Outcome.ok_bind, hafter], ?_⟩
  rwa [List.flatMap_append, List.flatMap_append, List.flatMap_singleton]

namespace Usage

variable {u : Usage} {rules : List (Rule K)} {r : Rule K}

/-- The tables say exactly what some clauses use. -/
structure Covers (u : Usage) (clauses : List (Clause K)) : Prop where
  kinds : Tabulates u.kinds (clauses.flatMap Clause.uses)
  labels : Lists u.labels clauses

private theorem covers_add {clauses : List (Clause K)} {after : Usage} (h : u.Covers clauses)
    (ha : u.add r = .ok after) :
    after.Covers (clauses ++ r.clauses) ∧ ∃ d, r.dnf = .ok d ∧ d.Within Clause.IsProper := by
  obtain ⟨table, htable, ha⟩ := Outcome.bind_eq_ok.mp ha
  obtain ⟨merged, hmerged, ha⟩ := Outcome.bind_eq_ok.mp ha
  obtain ⟨d, hd, ha⟩ := Outcome.bind_eq_ok.mp ha
  obtain rfl := Except.ok.inj ha
  rw [Rule.kinds, hd] at htable
  obtain ⟨htab, hproper⟩ := Dnf.tabulates_kinds htable
  rw [Rule.clauses_eq hd]
  refine ⟨⟨?_, h.labels.foldl_addLabels⟩, d, hd, hproper⟩
  refine (tabulates_mergeKinds h.kinds hmerged).congr fun e => ?_
  rw [List.flatMap_append, List.mem_append, List.mem_append, htab.mem_iff]

private theorem exists_add {clauses : List (Clause K)} {kinds : String → VarKind} {d : Dnf K}
    (h : u.Covers clauses) (hu : Agrees kinds (clauses.flatMap Clause.uses)) (hd : r.dnf = .ok d)
    (hk : d.Within (Clause.HasKinds kinds)) : ∃ after, u.add r = .ok after := by
  obtain ⟨table, merged, htable, hmerged, -⟩ :=
    Rule.exists_mergeKinds .otherRules h.kinds hu hd hk
  exact ⟨⟨merged, d.flatten.foldl RuleSet.addLabels u.labels⟩,
    by rw [add, htable, Outcome.ok_bind, hmerged, Outcome.ok_bind, hd]; rfl⟩

/-- The tables of rules say exactly what the clauses of their normal forms use. -/
theorem covers_ofRules (h : ofRules rules = .ok u) :
    u.Covers (rules.flatMap Rule.clauses) ∧
      ∀ r ∈ rules, ∃ d, r.dnf = .ok d ∧ d.Within Clause.IsProper := by
  refine Outcome.foldlM_induction (fun seen (u : Usage) => u.Covers (seen.flatMap Rule.clauses) ∧
      ∀ r ∈ seen, ∃ d, r.dnf = .ok d ∧ d.Within Clause.IsProper) h
    ⟨⟨.empty, .empty⟩, by simp⟩ fun seen r before after ⟨hseen, hnormal⟩ hafter => ?_
  obtain ⟨hcovers, hr⟩ := covers_add hseen hafter
  rw [List.flatMap_append, List.flatMap_singleton]
  refine ⟨hcovers, fun s hs => ?_⟩
  rcases List.mem_append.mp hs with hs | hs
  · exact hnormal s hs
  · exact List.mem_singleton.mp hs ▸ hr

/-- The tables can be filled exactly when the rules agree on the kind of every variable. -/
theorem exists_ofRules_iff : (∃ u, ofRules rules = .ok u) ↔ KindConsistent rules := by
  constructor
  · rintro ⟨u, hu⟩
    obtain ⟨hcovers, hnormal⟩ := covers_ofRules hu
    obtain ⟨kinds, hkinds⟩ := hcovers.kinds.exists_agrees
    refine ⟨kinds, fun r hr => ?_⟩
    obtain ⟨d, hd, hproper⟩ := hnormal r hr
    refine ⟨d, hd, fun term hterm c hc => ⟨hproper term hterm c hc, ?_⟩⟩
    refine agrees_flatMap_uses.mp hkinds c (List.mem_flatMap.mpr ⟨r, hr, ?_⟩)
    rw [Rule.clauses_eq hd]
    exact List.mem_flatten.mpr ⟨term, hterm, hc⟩
  · rintro ⟨kinds, hrules⟩
    obtain ⟨u, hu, -⟩ : ∃ u, ofRules rules = .ok u ∧ u.Covers (rules.flatMap Rule.clauses) := by
      refine Outcome.exists_foldlM (fun seen (u : Usage) => u.Covers (seen.flatMap Rule.clauses))
        ⟨.empty, .empty⟩ fun seen r u hseen hcovers => ?_
      have hsubset := hseen.subset
      obtain ⟨d, hd, hk⟩ := hrules r (hsubset (by simp))
      have hagrees : Agrees kinds ((seen.flatMap Rule.clauses).flatMap Clause.uses) :=
        agrees_of_within fun r hr => hrules r (hsubset (List.mem_append_left _ hr))
      obtain ⟨after, hafter⟩ := exists_add hcovers hagrees hd hk
      refine ⟨after, hafter, ?_⟩
      rw [List.flatMap_append, List.flatMap_singleton]
      exact (covers_add hcovers hafter).1
    exact ⟨u, hu⟩

instance : Decidable (KindConsistent rules) :=
  decidable_of_iff ((ofRules rules).toOption.isSome = true) <| by
    rw [← exists_ofRules_iff]
    cases ofRules rules <;> simp [Except.toOption]

end Usage

end RuleAudit
