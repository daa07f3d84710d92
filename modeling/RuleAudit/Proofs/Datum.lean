import RuleAudit.Datum

/-!
# Parts of data

What occurs in a list or under a key of a mapping is a part of it, and so are the parts of that.
An error about a number somewhere in a body names the part that is to blame.
-/

namespace RuleAudit.Datum

section Parts

variable {K : Type}

/-- A datum occurs in another one, as an item or as the value of a key. -/
inductive IsPart : Datum K → Datum K → Prop
  | refl (d : Datum K) : IsPart d d
  | item {p d : Datum K} {items : List (Datum K)} (hd : d ∈ items) (h : IsPart p d) :
    IsPart p (.list items)
  | value {p k d : Datum K} {entries : List (Datum K × Datum K)} (hd : (k, d) ∈ entries)
    (h : IsPart p d) : IsPart p (.mapping entries)

theorem IsPart.trans {p d d' : Datum K} (h : IsPart p d) (h' : IsPart d d') :
    IsPart p d' := by
  induction h' with
  | refl => exact h
  | item hd _ ih => exact .item hd ih
  | value hd _ ih => exact .value hd ih

theorem sizeOf_lt_of_value [SizeOf K] {k d : Datum K} {entries : List (Datum K × Datum K)}
    (h : (k, d) ∈ entries) : sizeOf d < sizeOf (mapping entries) := by
  have hentry := List.sizeOf_lt_of_mem h
  simp only [Prod.mk.sizeOf_spec, mapping.sizeOf_spec] at hentry ⊢
  omega

theorem sizeOf_lt_of_item [SizeOf K] {k d : Datum K} {items : List (Datum K)}
    {entries : List (Datum K × Datum K)} (h : (k, list items) ∈ entries) (hd : d ∈ items) :
    sizeOf d < sizeOf (mapping entries) := by
  have hitem := List.sizeOf_lt_of_mem hd
  have hvalue := sizeOf_lt_of_value h
  rw [list.sizeOf_spec] at hvalue
  omega

/-! ### Fields -/

variable {key : String} {d : Datum K} {entries : List (Datum K × Datum K)}

/-- The value of a text key is in the mapping. -/
theorem exists_mem_of_field? (h : field? key entries = some d) : ∃ k, (k, d) ∈ entries := by
  induction entries with
  | nil => cases h
  | cons e entries ih =>
    rw [field?] at h
    split at h
    · exact ⟨e.1, Option.some.inj h ▸ List.mem_cons_self⟩
    · exact (ih h).imp fun _ => List.mem_cons_of_mem e

theorem isPart_of_field? {body : Datum K} (hbody : ∀ e ∈ entries, IsPart e.2 body)
    (h : field? key entries = some d) : IsPart d body := by
  obtain ⟨k, hk⟩ := exists_mem_of_field? h
  exact hbody (k, d) hk

theorem isPart_mapping : ∀ e ∈ entries, IsPart e.2 (.mapping entries) :=
  fun e he => .value he (.refl e.2)

/-- Leaving out other keys does not change the value of a key. -/
theorem field?_filter {keep : Datum K × Datum K → Bool}
    (h : ∀ e, e.1.isText key = true → keep e = true) :
    field? key (entries.filter keep) = field? key entries := by
  induction entries with
  | nil => rfl
  | cons e entries ih =>
    rw [List.filter_cons, field?]
    split
    · rw [field?, ih]
    · next hkeep =>
      rw [if_neg fun hkey => hkeep (h e hkey), ih]

end Parts

/-! ### Numbers out of range -/

variable {K : Type} [Scalar K]

/-- A number that is finite but out of range. -/
def IsOversized (d : Datum K) : Prop :=
  ∃ a q, Amount.ofDatum? d = some a ∧ a.toRat? = some q ∧
    Scalar.isFinite (Scalar.ofRat q : K) = false

theorem isOversized_int {n : Int} (h : (Scalar.ofInt? n : Option K) = none) :
    (int n : Datum K).IsOversized := by
  refine ⟨.int n, n, rfl, rfl, ?_⟩
  rw [Scalar.ofInt?] at h
  split at h
  · cases h
  · next hfinite => exact Bool.eq_false_iff.mpr hfinite

end RuleAudit.Datum
