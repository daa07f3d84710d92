import RuleAudit.Proofs.Outcome

/-!
# What can go wrong

The errors of an operation are of a kind when those of its steps are. With these rules, the errors
of an operation can be read off its definition, step by step, without a look at its results.
-/

namespace RuleAudit.Outcome

variable {ε α β : Type} {E E' : ε → Prop}

/-- Every error of an operation is of a kind. -/
def FailsOnly (E : ε → Prop) (x : Except ε α) : Prop :=
  ∀ e, x = .error e → E e

theorem failsOnly_ok (a : α) : FailsOnly E (.ok a) := fun e he => by cases he

theorem failsOnly_error {e : ε} (h : E e) : FailsOnly E (.error e : Except ε α) := fun e' he => by
  cases he
  exact h

theorem FailsOnly.mono {x : Except ε α} (h : FailsOnly E x) (hE : ∀ e, E e → E' e) :
    FailsOnly E' x :=
  fun e he => hE e (h e he)

theorem FailsOnly.bind {x : Except ε α} {f : α → Except ε β} (hx : FailsOnly E x)
    (hf : ∀ a, x = .ok a → FailsOnly E (f a)) : FailsOnly E (x >>= f) := by
  cases x with
  | ok a => exact hf a rfl
  | error e => exact failsOnly_error (hx e rfl)

/-- Turning a result into another one makes no errors. -/
theorem FailsOnly.map {x : Except ε α} (hx : FailsOnly E x) (f : α → β) :
    FailsOnly E (x >>= fun a => pure (f a)) :=
  hx.bind fun a _ => failsOnly_ok (f a)

theorem failsOnly_ite {p : Prop} [Decidable p] {x y : Except ε α} (hx : p → FailsOnly E x)
    (hy : ¬ p → FailsOnly E y) : FailsOnly E (if p then x else y) := by
  split
  · next h => exact hx h
  · next h => exact hy h

/-- A test, and what is done if it is passed or not. -/
theorem FailsOnly.test {x : Except ε Bool} {y z : Except ε β} (hx : FailsOnly E x)
    (hy : FailsOnly E y) (hz : FailsOnly E z) : FailsOnly E (x >>= fun b => if b then y else z) :=
  hx.bind fun _ _ => failsOnly_ite (fun _ => hy) fun _ => hz

/-! ### Steps over a list -/

section Lists

variable {l : List α}

theorem failsOnly_mapM {f : α → Except ε β} (h : ∀ a ∈ l, FailsOnly E (f a)) :
    FailsOnly E (l.mapM f) := by
  induction l with
  | nil => exact failsOnly_ok []
  | cons a l ih =>
    obtain ⟨ha, hl⟩ := List.forall_mem_cons.mp h
    rw [List.mapM_cons]
    exact ha.bind fun b _ => (ih hl).map (b :: ·)

theorem failsOnly_foldlM {f : β → α → Except ε β} {start : β}
    (h : ∀ a ∈ l, ∀ b, FailsOnly E (f b a)) : FailsOnly E (l.foldlM f start) := by
  induction l generalizing start with
  | nil => exact failsOnly_ok start
  | cons a l ih =>
    obtain ⟨ha, hl⟩ := List.forall_mem_cons.mp h
    rw [List.foldlM_cons]
    exact (ha start).bind fun _ _ => ih hl

theorem failsOnly_forM {f : α → Except ε Unit} (h : ∀ a ∈ l, FailsOnly E (f a)) :
    FailsOnly E (l.forM f) := by
  induction l with
  | nil => exact failsOnly_ok _
  | cons a l ih =>
    obtain ⟨ha, hl⟩ := List.forall_mem_cons.mp h
    rw [List.forM]
    exact ha.bind fun _ _ => ih hl

theorem failsOnly_forIn {f : α → Except ε (ForInStep PUnit)}
    (h : ∀ a ∈ l, FailsOnly E (f a)) : FailsOnly E (forIn l PUnit.unit fun a _ => f a) := by
  induction l with
  | nil => exact failsOnly_ok _
  | cons a l ih =>
    obtain ⟨ha, hl⟩ := List.forall_mem_cons.mp h
    rw [List.forIn_cons]
    refine ha.bind fun b _ => ?_
    cases b with
    | done _ => exact failsOnly_ok _
    | yield _ => exact ih hl

end Lists

/-! ### Results of a kind -/

section Results

variable {P P' : α → Prop} {Q : β → Prop} {x : Except ε α} {l : List α}

/-- An operation ends with an error of a kind or with a result of a kind. -/
structure Ends (E : ε → Prop) (P : α → Prop) (x : Except ε α) : Prop where
  failsOnly : FailsOnly E x
  result : ∀ a, x = .ok a → P a

theorem FailsOnly.ends (h : FailsOnly E x) : Ends E (fun a => x = .ok a) x :=
  ⟨h, fun _ => id⟩

theorem ends_ok {a : α} (h : P a) : Ends E P (.ok a) :=
  ⟨failsOnly_ok a, fun _ ha => Except.ok.inj ha ▸ h⟩

theorem ends_error {e : ε} (h : E e) : Ends E P (.error e) :=
  ⟨failsOnly_error h, fun _ ha => nomatch ha⟩

theorem Ends.imp_error (h : Ends E P x) (hE : ∀ e, E e → E' e) : Ends E' P x :=
  ⟨h.failsOnly.mono hE, h.result⟩

theorem Ends.imp_result (h : Ends E P x) (hP : ∀ a, P a → P' a) : Ends E P' x :=
  ⟨h.failsOnly, fun a ha => hP a (h.result a ha)⟩

theorem Ends.bind {f : α → Except ε β} (hx : Ends E P x) (hf : ∀ a, P a → Ends E Q (f a)) :
    Ends E Q (x >>= f) := by
  cases x with
  | ok a => exact hf a (hx.result a rfl)
  | error e => exact ends_error (hx.failsOnly e rfl)

theorem Ends.failsOnly_bind {f : α → Except ε β} (hx : Ends E P x)
    (hf : ∀ a, P a → FailsOnly E (f a)) : FailsOnly E (x >>= f) :=
  hx.failsOnly.bind fun a ha => hf a (hx.result a ha)

theorem Ends.map {f : α → β} (hx : Ends E P x) (hf : ∀ a, P a → Q (f a)) :
    Ends E Q (x >>= fun a => pure (f a)) :=
  hx.bind fun a ha => ends_ok (hf a ha)

theorem ends_ite {p : Prop} [Decidable p] {y : Except ε α} (hx : p → Ends E P x)
    (hy : ¬ p → Ends E P y) : Ends E P (if p then x else y) := by
  split
  · next h => exact hx h
  · next h => exact hy h

theorem ends_mapM {f : α → Except ε β} (h : ∀ a ∈ l, Ends E Q (f a)) :
    Ends E (∀ b ∈ ·, Q b) (l.mapM f) := by
  refine ⟨failsOnly_mapM fun a ha => (h a ha).failsOnly, fun results hresults b hb => ?_⟩
  obtain ⟨a, ha, hab⟩ := exists_of_mem_mapM hresults hb
  exact (h a ha).result b hab

/-- The steps may rely on what the steps before them keep. -/
theorem ends_foldlM (I : β → Prop) {f : β → α → Except ε β} {start : β} (hstart : I start)
    (h : ∀ a ∈ l, ∀ b, I b → Ends E I (f b a)) : Ends E I (l.foldlM f start) := by
  induction l generalizing start with
  | nil => exact ends_ok hstart
  | cons a l ih =>
    obtain ⟨ha, hl⟩ := List.forall_mem_cons.mp h
    rw [List.foldlM_cons]
    -- what the first step keeps is where the others start
    exact (ha start hstart).bind fun b hb => ih hb hl

/-- Steps that may leave out their result. -/
theorem ends_filterMapM {f : α → Except ε (Option β)} (h : ∀ a ∈ l, Ends E (∀ b ∈ ·, Q b) (f a)) :
    Ends E (∀ b ∈ ·, Q b) (l.filterMapM f) := by
  induction l with
  | nil => exact ends_ok (List.forall_mem_nil _)
  | cons a l ih =>
    obtain ⟨ha, hl⟩ := List.forall_mem_cons.mp h
    rw [List.filterMapM_cons]
    refine ha.bind fun kept hkept => ?_
    cases kept with
    | none => exact ih hl
    | some b => exact (ih hl).map fun bs hbs => List.forall_mem_cons.mpr ⟨hkept b rfl, hbs⟩

/-- A filter keeps items of the list. -/
theorem ends_filterM {f : α → Except ε Bool} (h : ∀ a ∈ l, FailsOnly E (f a)) :
    Ends E (· ⊆ l) (l.filterM f) := by
  suffices hs : ∀ kept, Ends E (· ⊆ l ++ kept) (List.filterAuxM f l kept) from
    (hs []).map fun kept hkept a ha => by simpa using hkept (List.mem_reverse.mp ha)
  induction l with
  | nil => exact fun kept => ends_ok (List.Subset.refl _)
  | cons a l ih =>
    intro kept
    obtain ⟨ha, hl⟩ := List.forall_mem_cons.mp h
    rw [List.filterAuxM]
    refine ha.ends.bind fun b _ => (ih hl _).imp_result fun out hout x hx => ?_
    have hmem := hout hx
    cases b with
    | true => simpa [or_left_comm] using hmem
    | false => simpa using Or.inr (List.mem_append.mp hmem)

theorem failsOnly_allM {f : α → Except ε Bool} (h : ∀ a ∈ l, FailsOnly E (f a)) :
    FailsOnly E (l.allM f) := by
  induction l with
  | nil => exact failsOnly_ok true
  | cons a l ih =>
    obtain ⟨ha, hl⟩ := List.forall_mem_cons.mp h
    rw [List.allM]
    refine ha.bind fun b _ => ?_
    cases b with
    | true => exact ih hl
    | false => exact failsOnly_ok false

theorem failsOnly_anyM {f : α → Except ε Bool} (h : ∀ a ∈ l, FailsOnly E (f a)) :
    FailsOnly E (l.anyM f) := by
  induction l with
  | nil => exact failsOnly_ok false
  | cons a l ih =>
    obtain ⟨ha, hl⟩ := List.forall_mem_cons.mp h
    rw [List.anyM]
    refine ha.bind fun b _ => ?_
    cases b with
    | true => exact failsOnly_ok true
    | false => exact ih hl

theorem failsOnly_findM? {f : α → Except ε Bool} (h : ∀ a ∈ l, FailsOnly E (f a)) :
    FailsOnly E (l.findM? f) := by
  induction l with
  | nil => exact failsOnly_ok none
  | cons a l ih =>
    obtain ⟨ha, hl⟩ := List.forall_mem_cons.mp h
    rw [List.findM?]
    refine ha.bind fun b _ => ?_
    cases b with
    | true => exact failsOnly_ok (some a)
    | false => exact ih hl

end Results

end RuleAudit.Outcome

namespace RuleAudit.Reported

variable {K : Type} [Scalar K] {α β : Type} {E : Error K → Prop} {P : α → Prop} {Q : β → Prop}

theorem ends_bind {x : Reported K α} {f : α → Reported K β} (hx : Outcome.Ends E P x.outcome)
    (hf : ∀ a, P a → Outcome.Ends E Q (f a).outcome) : Outcome.Ends E Q (x >>= f).outcome := by
  rw [outcome_bind]
  exact hx.bind hf

theorem ends_tryCatch {E' : Error K → Prop} {x : Reported K α} {handle : Error K → Reported K α}
    (hx : Outcome.Ends E P x.outcome) (hhandle : ∀ e, E e → Outcome.Ends E' P (handle e).outcome) :
    Outcome.Ends E' P (tryCatch x handle).outcome := by
  rw [outcome_tryCatch]
  split
  · next a ha => exact Outcome.ends_ok (hx.result a ha)
  · next e he => exact hhandle e (hx.failsOnly e he)

/-- Whether an integer is out of range. -/
def overflows (x : Reported K α) : Bool :=
  match x.outcome with
  | .error (.overflow .integer) => true
  | _ => false

theorem outcome_of_overflows {x : Reported K α} (h : x.overflows = true) :
    x.outcome = .error (.overflow .integer) := by
  unfold overflows at h
  split at h
  · next hx => exact hx
  · cases h

end RuleAudit.Reported
