import Mathlib.Data.List.Forall2
import Mathlib.Data.List.Nodup
import RuleAudit.Assoc
import RuleAudit.Error

/-!
# Outcomes and tables

Facts about operations that may fail, and about the tables that they pass on. A sequence of steps
gives a result exactly when each step does. A table whose keys differ pairwise gives every key the
value it was entered with, and making a table of such pairs changes nothing.
-/

namespace RuleAudit

/-! ### Results of steps -/

namespace Outcome

variable {ε α β γ : Type}

@[simp]
theorem ok_bind (a : α) (f : α → Except ε β) : (Except.ok a >>= f) = f a := rfl

@[simp]
theorem error_bind (e : ε) (f : α → Except ε β) :
    ((Except.error e : Except ε α) >>= f) = .error e := rfl

/-- A result that passes a test is there. -/
theorem exists_of_any_toOption {x : Except ε α} {p : α → Bool} (h : x.toOption.any p = true) :
    ∃ a, x = .ok a ∧ p a = true := by
  cases x with
  | ok a => exact ⟨a, rfl, h⟩
  | error e => cases h

theorem eq_ok_of_toOption {x : Except ε α} {a : α} (h : x.toOption = some a) : x = .ok a := by
  cases x with
  | ok b => rw [Option.some.inj h]
  | error e => cases h

/-- A step after another gives a result when both do. -/
theorem bind_eq_ok {x : Except ε α} {f : α → Except ε β} {b : β} :
    (x >>= f) = .ok b ↔ ∃ a, x = .ok a ∧ f a = .ok b := by
  cases x <;> simp

theorem bind_ok_eq_error {x : Except ε α} {g : α → β} {e : ε} :
    (x >>= fun a => .ok (g a)) = .error e ↔ x = .error e := by
  cases x <;> simp

theorem mapM_congr {f g : α → Except ε β} {l : List α} (h : ∀ a ∈ l, f a = g a) :
    l.mapM f = l.mapM g := by
  induction l with
  | nil => rfl
  | cons a l ih =>
    rw [List.mapM_cons, List.mapM_cons, h a List.mem_cons_self,
      ih fun b hb => h b (List.mem_cons_of_mem a hb)]

/-- Steps that all succeed give the list of their results. -/
theorem mapM_eq_map {f : α → Except ε β} {g : α → β} {l : List α}
    (h : ∀ a ∈ l, f a = .ok (g a)) : l.mapM f = .ok (l.map g) := by
  induction l with
  | nil => rfl
  | cons a l ih =>
    rw [List.mapM_cons, h a List.mem_cons_self, ih fun b hb => h b (List.mem_cons_of_mem a hb)]
    rfl

/-- When all steps from a start on succeed, every single one does from somewhere. -/
theorem exists_of_foldlM_eq_ok {f : β → α → Except ε β} {l : List α} {start final : β}
    (h : l.foldlM f start = .ok final) {a : α} (ha : a ∈ l) : ∃ b c, f b a = .ok c := by
  induction l generalizing start with
  | nil => cases ha
  | cons b l ih =>
    rw [List.foldlM_cons] at h
    obtain ⟨next, hnext, hrest⟩ := bind_eq_ok.mp h
    rcases List.mem_cons.mp ha with rfl | ha
    · exact ⟨start, next, hnext⟩
    · exact ih hrest ha

/-- Steps from a start on fail at the first one that does. -/
theorem foldlM_eq_error {f : β → α → Except ε β} {l : List α} {start : β} {e : ε} :
    l.foldlM f start = .error e ↔ ∃ before a after b, l = before ++ a :: after ∧
      before.foldlM f start = .ok b ∧ f b a = .error e := by
  constructor
  · intro h
    induction l generalizing start with
    | nil => cases h
    | cons a l ih =>
      rw [List.foldlM_cons] at h
      cases ha : f start a with
      | error e' =>
        rw [ha] at h
        exact ⟨[], a, l, start, rfl, rfl, ha.trans h⟩
      | ok next =>
        rw [ha] at h
        obtain ⟨before, b, after, c, rfl, hbefore, hb⟩ := ih h
        exact ⟨a :: before, b, after, c, rfl, by rw [List.foldlM_cons, ha]; exact hbefore, hb⟩
  · rintro ⟨before, a, after, b, rfl, hbefore, ha⟩
    rw [List.foldlM_append, hbefore, ok_bind, List.foldlM_cons, ha]
    rfl

/-- What every step keeps, said of the items it has been given so far, holds at the end. -/
theorem foldlM_induction {f : β → α → Except ε β} (motive : List α → β → Prop)
    {l : List α} {start final : β} (h : l.foldlM f start = .ok final) (hstart : motive [] start)
    (hstep : ∀ seen a b c, motive seen b → f b a = .ok c → motive (seen ++ [a]) c) :
    motive l final := by
  suffices hs : ∀ seen start, motive seen start → l.foldlM f start = .ok final →
      motive (seen ++ l) final from hs [] start hstart h
  clear h hstart
  induction l with
  | nil =>
    rintro seen start hseen ⟨⟩
    rwa [List.append_nil]
  | cons a l ih =>
    intro seen start hseen h
    rw [List.foldlM_cons] at h
    obtain ⟨next, hnext, hrest⟩ := bind_eq_ok.mp h
    rw [List.append_cons]
    exact ih _ next (hstep seen a start next hseen hnext) hrest

/-- Steps that succeed wherever others do give the same results there. -/
theorem foldlM_eq_ok_of_imp {f g : β → α → Except ε β} {l : List α} {start final : β}
    (hfg : ∀ b a c, f b a = .ok c → g b a = .ok c) (h : l.foldlM f start = .ok final) :
    l.foldlM g start = .ok final := by
  induction l generalizing start with
  | nil => exact h
  | cons a l ih =>
    rw [List.foldlM_cons] at h ⊢
    obtain ⟨next, hnext, hrest⟩ := bind_eq_ok.mp h
    rw [hfg _ _ _ hnext, ok_bind, ih hrest]

/-- Steps that can always go on, as long as an invariant holds, come to an end. -/
theorem exists_foldlM {f : β → α → Except ε β} (motive : List α → β → Prop) {l : List α}
    {start : β} (hstart : motive [] start)
    (hstep : ∀ seen a b, seen ++ [a] <+: l → motive seen b →
      ∃ c, f b a = .ok c ∧ motive (seen ++ [a]) c) :
    ∃ final, l.foldlM f start = .ok final ∧ motive l final := by
  suffices hs : ∀ rest seen start, seen ++ rest = l → motive seen start →
      ∃ final, rest.foldlM f start = .ok final ∧ motive l final from hs l [] start rfl hstart
  intro rest
  induction rest with
  | nil => exact fun seen start hl hseen => ⟨start, rfl, by rwa [← hl, List.append_nil]⟩
  | cons a rest ih =>
    intro seen start hl hseen
    rw [List.append_cons] at hl
    obtain ⟨next, hnext, hmotive⟩ := hstep seen a start ⟨rest, hl⟩ hseen
    obtain ⟨final, hfinal, hend⟩ := ih _ next hl hmotive
    refine ⟨final, ?_, hend⟩
    rw [List.foldlM_cons, hnext]
    exact hfinal

/-- A test that gives a verdict on every item decides whether all items pass. -/
theorem allM_eq_all {f : α → Except ε Bool} {g : α → Bool} {l : List α}
    (h : ∀ a ∈ l, f a = .ok (g a)) : l.allM f = .ok (l.all g) := by
  induction l with
  | nil => rfl
  | cons a l ih =>
    rw [List.allM, h a List.mem_cons_self, ok_bind, List.all_cons]
    cases g a
    · rfl
    · exact ih fun b hb => h b (List.mem_cons_of_mem a hb)

/-- All items pass a test that was found to hold for all. -/
theorem eq_ok_of_allM {f : α → Except ε Bool} {l : List α} (h : l.allM f = .ok true) :
    ∀ a ∈ l, f a = .ok true := by
  induction l with
  | nil => exact fun a ha => by cases ha
  | cons a l ih =>
    rw [List.allM] at h
    obtain ⟨b, hb, hrest⟩ := bind_eq_ok.mp h
    cases b with
    | false => cases hrest
    | true => exact List.forall_mem_cons.mpr ⟨hb, ih hrest⟩

/-- All items pass a check that was made for each. -/
theorem eq_ok_of_forM {f : α → Except ε Unit} {l : List α} (h : l.forM f = .ok ()) :
    ∀ a ∈ l, f a = .ok () := by
  induction l with
  | nil => exact fun a ha => by cases ha
  | cons a l ih =>
    rw [List.forM] at h
    obtain ⟨_, ha, hrest⟩ := bind_eq_ok.mp h
    exact List.forall_mem_cons.mpr ⟨ha, ih hrest⟩

/-- A test that gives a verdict on every item decides whether some item passes. -/
theorem anyM_eq_any {f : α → Except ε Bool} {g : α → Bool} {l : List α}
    (h : ∀ a ∈ l, f a = .ok (g a)) : l.anyM f = .ok (l.any g) := by
  induction l with
  | nil => rfl
  | cons a l ih =>
    rw [List.anyM, h a List.mem_cons_self, ok_bind, List.any_cons]
    cases g a
    · exact ih fun b hb => h b (List.mem_cons_of_mem a hb)
    · rfl

/-- A loop of checks passes when every check does. -/
theorem forIn_eq_ok {f : α → Except ε (ForInStep PUnit)} {l : List α}
    (h : ∀ a ∈ l, f a = .ok (.yield PUnit.unit)) :
    (forIn l PUnit.unit fun a _ => f a) = .ok PUnit.unit := by
  induction l with
  | nil => rfl
  | cons a l ih =>
    rw [List.forIn_cons, h a List.mem_cons_self]
    exact ih fun b hb => h b (List.mem_cons_of_mem a hb)

/-- A loop of checks that passes has passed every check. -/
theorem exists_of_forIn {f : α → Except ε β} {l : List α} {u : PUnit}
    (h : (forIn l PUnit.unit fun a _ => do
      let _ ← f a
      pure (ForInStep.yield PUnit.unit)) = .ok u) : ∀ a ∈ l, ∃ b, f a = .ok b := by
  induction l with
  | nil => exact List.forall_mem_nil _
  | cons a l ih =>
    rw [List.forIn_cons] at h
    obtain ⟨step, hstep, h⟩ := bind_eq_ok.mp h
    obtain ⟨b, hb, hstep⟩ := bind_eq_ok.mp hstep
    obtain rfl := Except.ok.inj hstep
    exact List.forall_mem_cons.mpr ⟨⟨b, hb⟩, ih h⟩

/-- A test that gives a verdict on every item keeps the items that pass. -/
theorem filterM_eq_filter {f : α → Except ε Bool} {g : α → Bool} {l : List α}
    (h : ∀ a ∈ l, f a = .ok (g a)) : l.filterM f = .ok (l.filter g) := by
  suffices hs : ∀ kept : List α,
      List.filterAuxM f l kept = .ok ((l.filter g).reverse ++ kept) by
    rw [List.filterM, hs, ok_bind, List.append_nil, List.reverse_reverse]
    rfl
  induction l with
  | nil => exact fun kept => rfl
  | cons a l ih =>
    intro kept
    rw [List.filterAuxM, h a List.mem_cons_self, ok_bind,
      ih fun b hb => h b (List.mem_cons_of_mem a hb)]
    cases hg : g a <;> simp [hg]

/-- Steps that all succeed, some of them without a result. -/
theorem filterMapM_eq_filterMap {f : α → Except ε (Option β)} {g : α → Option β} {l : List α}
    (h : ∀ a ∈ l, f a = .ok (g a)) : l.filterMapM f = .ok (l.filterMap g) := by
  induction l with
  | nil => rfl
  | cons a l ih =>
    rw [List.filterMapM_cons, h a List.mem_cons_self, ok_bind,
      ih fun b hb => h b (List.mem_cons_of_mem a hb)]
    cases hg : g a with
    | none => rw [List.filterMap_cons_none hg]
    | some b =>
      rw [List.filterMap_cons_some hg]
      rfl

theorem filterMapM_map {f : β → Except ε (Option γ)} (g : α → β) (l : List α) :
    (l.map g).filterMapM f = l.filterMapM fun a => f (g a) := by
  induction l with
  | nil => rfl
  | cons a l ih => rw [List.map_cons, List.filterMapM_cons, List.filterMapM_cons, ih]

/-- When steps give a list of results, each of them gives the one at its place. -/
theorem forall₂_of_mapM {f : α → Except ε β} {l : List α} {results : List β}
    (h : l.mapM f = .ok results) : List.Forall₂ (fun a b => f a = .ok b) l results := by
  induction l generalizing results with
  | nil =>
    obtain rfl := Except.ok.inj h
    exact .nil
  | cons a l ih =>
    rw [List.mapM_cons] at h
    obtain ⟨b, hb, h⟩ := bind_eq_ok.mp h
    obtain ⟨rest, hrest, h⟩ := bind_eq_ok.mp h
    obtain rfl := Except.ok.inj h
    exact .cons hb (ih hrest)

/-- Every result comes from an item. -/
theorem exists_of_mem_mapM {f : α → Except ε β} {l : List α} {results : List β}
    (h : l.mapM f = .ok results) {b : β} (hb : b ∈ results) : ∃ a ∈ l, f a = .ok b := by
  have hall := forall₂_of_mapM h
  clear h
  induction hall with
  | nil => cases hb
  | cons hab _ ih =>
    rcases List.mem_cons.mp hb with rfl | hb
    · exact ⟨_, List.mem_cons_self, hab⟩
    · obtain ⟨a, ha, hf⟩ := ih hb
      exact ⟨a, List.mem_cons_of_mem _ ha, hf⟩

/-- Results that belong to the items one by one are those of all steps. -/
theorem mapM_of_forall₂ {f : α → Except ε β} {l : List α} {results : List β}
    (h : List.Forall₂ (fun a b => f a = .ok b) l results) : l.mapM f = .ok results := by
  induction h with
  | nil => rfl
  | cons hab _ ih =>
    rw [List.mapM_cons, hab, ih]
    rfl

/-- Every item has its result among the results. -/
theorem exists_mem_of_mapM {f : α → Except ε β} {l : List α} {results : List β}
    (h : l.mapM f = .ok results) {a : α} (ha : a ∈ l) : ∃ b ∈ results, f a = .ok b := by
  have hall := forall₂_of_mapM h
  clear h
  induction hall with
  | nil => cases ha
  | cons hab _ ih =>
    rcases List.mem_cons.mp ha with rfl | ha
    · exact ⟨_, List.mem_cons_self, hab⟩
    · obtain ⟨b, hb, hf⟩ := ih ha
      exact ⟨b, List.mem_cons_of_mem _ hb, hf⟩

/-- Every item has a result. -/
theorem exists_of_mapM {f : α → Except ε β} {l : List α} {results : List β}
    (h : l.mapM f = .ok results) {a : α} (ha : a ∈ l) : ∃ b, f a = .ok b := by
  obtain ⟨b, -, hb⟩ := exists_mem_of_mapM h ha
  exact ⟨b, hb⟩

/-- Steps on the items and their results are steps on the items alone. -/
theorem mapM_zip_eq_ok {f : α → Except ε β} {g : α × β → Except ε γ} {l : List α} {cs : List γ} :
    (∃ bs, l.mapM f = .ok bs ∧ (l.zip bs).mapM g = .ok cs) ↔
      l.mapM (fun a => f a >>= fun b => g (a, b)) = .ok cs := by
  induction l generalizing cs with
  | nil =>
    constructor
    · rintro ⟨bs, hbs, h⟩
      exact h
    · exact fun h => ⟨[], rfl, h⟩
  | cons a l ih =>
    simp only [List.mapM_cons, bind_eq_ok]
    constructor
    · rintro ⟨_, ⟨b, hb, bs, hbs, ⟨⟩⟩, h⟩
      rw [List.zip_cons_cons, List.mapM_cons] at h
      obtain ⟨c, hc, h⟩ := bind_eq_ok.mp h
      obtain ⟨rest, hrest, h⟩ := bind_eq_ok.mp h
      exact ⟨c, ⟨b, hb, hc⟩, rest, ih.mp ⟨bs, hbs, hrest⟩, h⟩
    · rintro ⟨c, ⟨b, hb, hc⟩, rest, hrest, h⟩
      obtain ⟨bs, hbs, hzip⟩ := ih.mpr hrest
      refine ⟨b :: bs, ⟨b, hb, bs, hbs, rfl⟩, ?_⟩
      rw [List.zip_cons_cons, List.mapM_cons, hc, ok_bind, hzip]
      exact h

/-- What can be read off each result can be read off its item. -/
theorem map_eq_of_mapM {f : α → Except ε β} {l : List α} {results : List β} {g : β → γ} {k : α → γ}
    (h : l.mapM f = .ok results) (hk : ∀ a b, f a = .ok b → g b = k a) :
    results.map g = l.map k := by
  have hall := forall₂_of_mapM h
  clear h
  induction hall with
  | nil => rfl
  | cons hab _ ih => rw [List.map_cons, List.map_cons, hk _ _ hab, ih]

end Outcome

/-! ### Outcomes with warnings -/

namespace Reported

variable {K : Type} [Scalar K] {α β : Type}

@[simp]
theorem outcome_pure (a : α) : (pure a : Reported K α).outcome = .ok a := rfl

@[simp]
theorem outcome_lift (x : Except (Error K) α) : (lift x).outcome = x := rfl

@[simp]
theorem outcome_monadLift (x : Except (Error K) α) :
    (monadLift x : Reported K α).outcome = x := rfl

@[simp]
theorem outcome_bind (x : Reported K α) (f : α → Reported K β) :
    (x >>= f).outcome = x.outcome >>= fun a => (f a).outcome := by
  change (andThen x f).outcome = _
  rw [andThen]
  cases x.outcome <;> rfl

@[simp]
theorem lift_ok_bind (a : α) (f : α → Reported K β) : (lift (.ok a) >>= f) = f a := rfl

@[simp]
theorem outcome_warn (w : Warning K) : (warn w).outcome = .ok () := rfl

@[simp]
theorem outcome_throw (e : Error K) : (throw e : Reported K α).outcome = .error e := rfl

/-- Warnings about some items do not stop an operation. -/
theorem outcome_forIn_warn (w : α → Warning K) (l : List α) :
    (forIn l PUnit.unit fun a _ => do
      warn (w a)
      pure (ForInStep.yield PUnit.unit) : Reported K PUnit).outcome = .ok PUnit.unit := by
  induction l with
  | nil => rfl
  | cons a l ih =>
    rw [List.forIn_cons, outcome_bind, outcome_bind, outcome_warn]
    exact ih

/-- An error that is caught is handled. -/
theorem outcome_tryCatch (x : Reported K α) (handle : Error K → Reported K α) :
    (tryCatch x handle).outcome = match x.outcome with
      | .ok a => .ok a
      | .error e => (handle e).outcome := by
  change (match x.outcome with
    | .ok _ => x
    | .error e => ⟨(handle e).outcome, x.warnings ++ (handle e).warnings⟩).outcome = _
  cases hx : x.outcome with
  | ok a => exact hx
  | error e => rfl

@[simp]
theorem warnings_pure (a : α) : (pure a : Reported K α).warnings = [] := rfl

@[simp]
theorem warnings_lift (x : Except (Error K) α) : (lift x).warnings = [] := rfl

theorem lift_eq_ok {x : Except (Error K) α} {a : α} (h : (lift x).outcome = .ok a) :
    lift x = ⟨.ok a, []⟩ := by
  rw [outcome_lift] at h
  rw [h]
  rfl

@[simp]
theorem warnings_warn (w : Warning K) : (warn w).warnings = [w] := rfl

/-- The warnings of a step are followed by those of the next one. -/
theorem warnings_bind {x : Reported K α} {a : α} (h : x.outcome = .ok a) (f : α → Reported K β) :
    (x >>= f).warnings = x.warnings ++ (f a).warnings := by
  change (andThen x f).warnings = _
  rw [andThen, h]

end Reported

/-! ### Tables -/

namespace Assoc

variable {α β : Type} [BEq α]

@[simp]
theorem get?_nil (k : α) : get? k ([] : List (α × β)) = none := rfl

theorem get?_cons (k : α) (e : α × β) (l : List (α × β)) :
    get? k (e :: l) = if e.1 == k then some e.2 else get? k l := by
  by_cases h : (e.1 == k) = true <;> simp [get?, h]

/-- A key is looked for in the first table, and then in the second one. -/
theorem get?_append (k : α) (l m : List (α × β)) :
    get? k (l ++ m) = (get? k l).or (get? k m) := by
  rw [get?, List.find?_append, get?, get?]
  cases l.find? (·.1 == k) with
  | none => rfl
  | some e => rfl

theorem get?_append_of_none {k : α} {l : List (α × β)} (h : get? k l = none)
    (m : List (α × β)) : get? k (l ++ m) = get? k m := by
  rw [get?_append, h, Option.none_or]

theorem get?_append_of_some {k : α} {l : List (α × β)} {b : β} (h : get? k l = some b)
    (m : List (α × β)) : get? k (l ++ m) = some b := by
  rw [get?_append, h, Option.some_or]

variable [LawfulBEq α]

/-- Entering a value under a new key puts it at the end. -/
theorem put_of_not_mem {k : α} {b : β} {l : List (α × β)} (h : k ∉ l.map (·.1)) :
    put k b l = l ++ [(k, b)] := by
  induction l with
  | nil => rfl
  | cons e l ih =>
    obtain ⟨hk, hl⟩ := not_or.mp (mt List.mem_cons.mpr h)
    rw [put, if_neg (by simpa using Ne.symm hk), ih hl, List.cons_append]

/-- A list of pairs with different keys is its own table. -/
theorem ofPairs_of_nodup {l : List (α × β)} (h : (l.map (·.1)).Nodup) : ofPairs l = l := by
  suffices hs : ∀ m : List (α × β), ((m ++ l).map (·.1)).Nodup →
      l.foldl (fun l p => put p.1 p.2 l) m = m ++ l from hs [] h
  clear h
  induction l with
  | nil => intro m _; simp
  | cons e l ih =>
    intro m h
    have hm : e.1 ∉ m.map (·.1) := by
      rw [List.map_append, List.map_cons] at h
      exact fun he => (List.nodup_append.mp h).2.2 e.1 he e.1 List.mem_cons_self rfl
    rw [List.foldl_cons, put_of_not_mem hm, ih _ (by simpa using h), List.append_assoc,
      List.singleton_append]

/-- A key that is found has an entry. -/
theorem mem_of_get? {k : α} {b : β} {l : List (α × β)} (h : get? k l = some b) : (k, b) ∈ l := by
  obtain ⟨e, he, rfl⟩ := Option.map_eq_some_iff.mp h
  have hk : e.1 = k := by simpa using List.find?_some he
  exact hk ▸ List.mem_of_find?_eq_some he

/-- With different keys, every entry is found under its key. -/
theorem get?_of_mem {k : α} {b : β} {l : List (α × β)} (h : (l.map (·.1)).Nodup)
    (hm : (k, b) ∈ l) : get? k l = some b := by
  induction l with
  | nil => cases hm
  | cons e l ih =>
    obtain ⟨he, hl⟩ := List.nodup_cons.mp h
    rw [get?_cons]
    rcases List.mem_cons.mp hm with rfl | hm
    · simp
    · have hmem : k ∈ l.map (·.1) := List.mem_map_of_mem (f := (·.1)) hm
      have hne : e.1 ≠ k := by rintro rfl; exact he hmem
      rw [if_neg (by simpa using hne), ih hl hm]

/-- A key is not found exactly when no entry has it. -/
theorem get?_eq_none {k : α} {l : List (α × β)} : get? k l = none ↔ k ∉ l.map (·.1) := by
  simp only [get?, Option.map_eq_none_iff, List.find?_eq_none, List.mem_map, beq_iff_eq,
    not_exists, not_and]

/-- Tables with different keys may change places. -/
theorem get?_append_comm {l m : List (α × β)} (h : (l.map (·.1)).Disjoint (m.map (·.1)))
    (k : α) : get? k (l ++ m) = get? k (m ++ l) := by
  cases hl : get? k l with
  | none => rw [get?_append_of_none hl, get?_append, hl, Option.or_none]
  | some b =>
    have hm : get? k m = none := by
      rw [get?_eq_none]
      exact fun hk => h (List.mem_map_of_mem (mem_of_get? hl)) hk
    rw [get?_append_of_some hl, get?_append_of_none hm, hl]

/-- A list of keys, each with a value that depends on it alone. -/
theorem get?_map_of_mem {k : α} (f : α → β) {l : List α} (h : k ∈ l) :
    get? k (l.map fun a => (a, f a)) = some (f k) := by
  induction l with
  | nil => cases h
  | cons a l ih =>
    rw [List.map_cons, get?_cons]
    by_cases hk : a = k
    · simp [hk]
    · rw [if_neg (by simpa using hk)]
      exact ih ((List.mem_cons.mp h).resolve_left fun he => hk he.symm)

/-- Writing a value shows under its key, and under no other. -/
theorem get?_put (j k : α) (b : β) (l : List (α × β)) :
    get? j (put k b l) = if k == j then some b else get? j l := by
  induction l with
  | nil => rw [put, get?_cons]
  | cons e l ih =>
    rw [put]
    by_cases hk : e.1 == k
    · rw [if_pos hk, get?_cons, get?_cons]
      obtain rfl := eq_of_beq hk
      split <;> rfl
    · rw [if_neg hk, get?_cons, get?_cons, ih]
      by_cases hj : e.1 == j
      · have hne : ¬ (k == j) = true := fun h =>
          hk (beq_iff_eq.mpr ((eq_of_beq hj).trans (eq_of_beq h).symm))
        rw [if_pos hj, if_neg hne, if_pos hj]
      · rw [if_neg hj, if_neg hj]

theorem mem_keys_put {j k : α} {b : β} {l : List (α × β)} :
    j ∈ (put k b l).map (·.1) ↔ k = j ∨ j ∈ l.map (·.1) := by
  rw [← not_iff_not, not_or, ← get?_eq_none, ← get?_eq_none, get?_put]
  by_cases h : k = j <;> simp [h]

/-- A table has the keys of the pairs that it was made from. -/
theorem mem_keys_ofPairs {k : α} {l : List (α × β)} :
    k ∈ (ofPairs l).map (·.1) ↔ k ∈ l.map (·.1) := by
  suffices hs : ∀ m : List (α × β), k ∈ (l.foldl (fun m p => put p.1 p.2 m) m).map (·.1) ↔
      k ∈ m.map (·.1) ∨ k ∈ l.map (·.1) from (hs []).trans (by simp)
  induction l with
  | nil => exact fun m => by simp
  | cons e l ih =>
    intro m
    rw [List.foldl_cons, ih, mem_keys_put, List.map_cons, List.mem_cons, eq_comm]
    tauto

end Assoc

end RuleAudit
