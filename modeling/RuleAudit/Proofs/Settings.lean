import RuleAudit.Proofs.Datum
import RuleAudit.Proofs.Failure
import RuleAudit.Settings

/-!
# Errors of settings

Settings are refused for a value of the wrong kind or out of its range. An integer that is out of
range among the numbers that are tested for being finite is an error of another kind: these are the
margin, the bound and its overrides, and no other setting.

The values that are only used later are not read when settings are made: a backend that is no text
and a number of rules that is no integer are found out by a query. Settings from a mapping have
neither (`Settings.isTyped_of_ofMapping`).
-/

namespace RuleAudit

open Outcome

variable {K : Type} [Scalar K]

/-- A value that was given is of the wrong kind, or out of its range. -/
def Error.IsArgument : Error K → Prop
  | mistyped _ => True
  | invalid _ => True
  | _ => False

/-- A number that occurs in a datum is out of range. -/
def Error.IsOverflowIn (d : Datum K) (e : Error K) : Prop :=
  e = .overflow .integer ∧ ∃ p, Datum.IsPart p d ∧ p.IsOversized

/-- What can go wrong with a value that is tested for being finite. -/
def Error.Refuses (d : Datum K) (e : Error K) : Prop :=
  e.IsArgument ∨ e.IsOverflowIn d

theorem Error.Refuses.mono {d d' : Datum K} {e : Error K} (hd : Datum.IsPart d d')
    (h : e.Refuses d) : e.Refuses d' :=
  h.imp_right fun ⟨he, p, hp, hsize⟩ => ⟨he, p, hp.trans hd, hsize⟩

/-! ### Single settings -/

theorem Size.failsOnly_ofAmount {d : Datum K} {a : Amount K} (h : Amount.ofDatum? d = some a)
    (refusal : Invalid) : FailsOnly (Error.Refuses d) (ofAmount refusal a) := by
  unfold ofAmount
  split
  · exact failsOnly_error (.inl trivial)
  · next q hq =>
    split
    · split
      · exact failsOnly_ok _
      · exact failsOnly_error (.inl trivial)
    · next hfinite =>
      refine failsOnly_error (.inr ⟨rfl, d, .refl d, a, q, h, hq, ?_⟩)
      exact Bool.eq_false_iff.mpr hfinite

theorem Size.failsOnly_read (refusal : Invalid) (d : Datum K) :
    FailsOnly (Error.Refuses d) (read refusal d) := by
  unfold read
  split
  · next a ha => exact failsOnly_ofAmount ha refusal
  · exact failsOnly_error (.inl trivial)

/-- An integer, as which a truth value counts. -/
def Amount.IsInteger : Amount K → Prop
  | real _ => False
  | _ => True

instance (a : Amount K) : Decidable a.IsInteger :=
  match a with
  | .flag _ => .isTrue trivial
  | .int _ => .isTrue trivial
  | .real _ => .isFalse id

namespace Settings

/-- An integer limits how many rules are removed together. -/
theorem exists_removals {s : Settings K} (h : s.maxRemovals.IsInteger) (count : Nat) :
    ∃ n, s.removals count = .ok n := by
  unfold removals
  split
  · exact ⟨_, rfl⟩
  · exact ⟨_, rfl⟩
  · next hreal =>
    rw [hreal] at h
    exact h.elim

theorem failsOnly_readOverride (entry : Datum K × Datum K) :
    FailsOnly (Error.Refuses entry.2) (readOverride entry) := by
  unfold readOverride
  dsimp only
  split
  · next a ha => exact (Size.failsOnly_ofAmount ha _).map _
  · exact failsOnly_error (.inl trivial)

theorem failsOnly_readLimit (name : String) (d : Datum K) :
    FailsOnly Error.IsArgument (readLimit name d) := by
  unfold readLimit
  split
  · exact failsOnly_ok _
  · split
    · exact failsOnly_ite (fun _ => failsOnly_error trivial) fun _ => failsOnly_ok _
    · exact failsOnly_error trivial

/-- A number that counts is the one that was given. -/
theorem ends_readCount (name : String) (d : Datum K) :
    Ends Error.IsArgument (fun a => Amount.ofDatum? d = some a) (readCount name d) := by
  unfold readCount
  split
  · next a ha => exact ends_ite (fun _ => ends_error trivial) fun _ => ends_ok ha
  · exact ends_error trivial

/-! ### Settings together -/

section Make

variable {body : Datum K} {entries : List (Datum K × Datum K)}

theorem readOverrides_mapping (overrides : List (Datum K × Datum K)) :
    readOverrides (.mapping overrides) = .ok overrides := by
  cases overrides with
  | nil => rfl
  | cons e overrides => rfl

section Given

variable (hbody : ∀ e ∈ entries, Datum.IsPart e.2 body)

include hbody

/-- A size that is given, or else has a default. -/
theorem failsOnly_readGiven {refusal : Invalid} {default : Datum K} {size : Size K}
    (hdefault : Size.read refusal default = .ok size) (name : String) :
    FailsOnly (Error.Refuses body)
      (Size.read refusal ((Datum.field? name entries).getD default)) := by
  cases hd : Datum.field? name entries with
  | none =>
    rw [Option.getD_none, hdefault]
    exact failsOnly_ok size
  | some d =>
    rw [Option.getD_some]
    have hpart := Datum.isPart_of_field? hbody hd
    exact (Size.failsOnly_read refusal d).mono fun _ => Error.Refuses.mono hpart

/-- Overrides that are given are a mapping, as `checkShapes` finds out. -/
theorem ends_readOverrides {E : Error K → Prop}
    (h : ∀ d, Datum.field? "big_m_overrides" entries = some d → ∃ es, d = .mapping es) :
    Ends E (∀ e ∈ ·, Datum.IsPart e.2 body)
      (readOverrides ((Datum.field? "big_m_overrides" entries).getD (.mapping []))) := by
  cases hd : Datum.field? "big_m_overrides" entries with
  | none => exact ends_ok (List.forall_mem_nil _)
  | some d =>
    obtain ⟨overrides, rfl⟩ := h d hd
    rw [Option.getD_some, readOverrides_mapping]
    exact ends_ok fun ⟨k, v⟩ he => .trans (.value he (.refl v)) (Datum.isPart_of_field? hbody hd)

end Given

/-- The numbers that are used when none are given are in range. -/
def HasDefaults (K : Type) [Scalar K] : Prop :=
  ∃ settings : Settings K, default = .ok settings

theorem failsOnly_make (hdefault : HasDefaults K) (hbody : ∀ e ∈ entries, Datum.IsPart e.2 body)
    (h : ∀ d, Datum.field? "big_m_overrides" entries = some d → ∃ es, d = .mapping es) :
    FailsOnly (Error.Refuses body) (make entries) := by
  -- the default settings are made of the sizes that stand in for those that are not given
  obtain ⟨epsilon, bigM, hepsilon, hbigM⟩ : ∃ epsilon bigM : Size K,
      Size.read .epsilon (.real (Scalar.ofRat (1 / 1000))) = .ok epsilon ∧
        Size.read .bigM (.real (Scalar.ofRat 1000000)) = .ok bigM := by
    obtain ⟨settings, hsettings⟩ := hdefault
    obtain ⟨epsilon, hepsilon, hrest⟩ := bind_eq_ok.mp hsettings
    obtain ⟨bigM, hbigM, -⟩ := bind_eq_ok.mp hrest
    exact ⟨epsilon, bigM, hepsilon, hbigM⟩
  have hargument : ∀ e : Error K, e.IsArgument → e.Refuses body := fun _ => .inl
  unfold make
  split
  · exact FailsOnly.bind (failsOnly_error (.inl trivial)) fun _ h => nomatch h
  · refine (failsOnly_readGiven hbody hepsilon "epsilon").bind fun _ _ => ?_
    refine (failsOnly_readGiven hbody hbigM "big_m").bind fun _ _ => ?_
    split
    · refine (ends_readOverrides hbody h).failsOnly_bind fun overrides hoverrides => ?_
      refine (failsOnly_mapM fun e he => ?_).bind fun _ _ => ?_
      · exact (failsOnly_readOverride e).mono fun _ => Error.Refuses.mono (hoverrides e he)
      refine ((failsOnly_readLimit _ _).mono hargument).bind fun _ _ => ?_
      refine ((failsOnly_readLimit _ _).mono hargument).bind fun _ _ => ?_
      refine ((ends_readCount _ _).failsOnly.mono hargument).bind fun _ _ => ?_
      exact ((ends_readCount _ _).failsOnly.mono hargument).map _
    · exact failsOnly_error (.inl trivial)

/-! ### Settings from a mapping -/

theorem failsOnly_checkShapes (entries : List (Datum K × Datum K)) :
    FailsOnly Error.IsArgument (checkShapes entries) := by
  refine failsOnly_forM fun ⟨name, shape⟩ _ => ?_
  dsimp only
  split
  · exact failsOnly_ite (fun _ => failsOnly_ok _) fun _ => failsOnly_error trivial
  · exact failsOnly_ok _

/-- A setting that is given has its shape. -/
theorem accepts_of_checkShapes (h : checkShapes entries = .ok ()) {name : String} {shape : Shape}
    (hshape : (name, shape) ∈ shapes) {d : Datum K} (hd : Datum.field? name entries = some d) :
    shape.accepts d = true := by
  have hcheck := eq_ok_of_forM h (name, shape) hshape
  dsimp only at hcheck
  rw [hd] at hcheck
  dsimp only at hcheck
  split at hcheck
  · assumption
  · cases hcheck

omit [Scalar K] in
/-- Leaving out unknown keys does not change the value of a setting. -/
theorem field?_known {name : String} {shape : Shape} (hshape : (name, shape) ∈ shapes) :
    Datum.field? name (entries.filter fun e => isKnown e.1) = Datum.field? name entries :=
  Datum.field?_filter fun _ he => List.any_eq_true.mpr ⟨(name, shape), hshape, he⟩

/-- A setting has its shape, given or not, if its default has. -/
theorem accepts_getD (h : checkShapes entries = .ok ()) {name : String} {shape : Shape}
    (hshape : (name, shape) ∈ shapes) {default : Datum K}
    (hdefault : shape.accepts default = true) :
    shape.accepts ((Datum.field? name entries).getD default) = true := by
  cases hd : Datum.field? name entries with
  | none => exact hdefault
  | some d => exact accepts_of_checkShapes h hshape hd

omit [Scalar K] in
theorem exists_mapping_of_accepts {d : Datum K} (h : Shape.mapping.accepts d = true) :
    ∃ es, d = .mapping es := by
  cases d with
  | mapping es => exact ⟨es, rfl⟩
  | _ => cases h

omit [Scalar K] in
theorem exists_text_of_accepts {d : Datum K} (h : Shape.text.accepts d = true) :
    ∃ name, d = .text name := by
  cases d with
  | text name => exact ⟨name, rfl⟩
  | _ => cases h

omit [Scalar K] in
theorem isInteger_of_accepts {d : Datum K} (h : Shape.integer.accepts d = true) {a : Amount K}
    (ha : Amount.ofDatum? d = some a) : a.IsInteger := by
  cases d with
  | int n =>
    obtain rfl := Option.some.inj ha
    trivial
  | _ => cases h

/-- Settings are made from a mapping, or a value of it is refused. -/
theorem failsOnly_ofMapping (hdefault : HasDefaults K)
    (hbody : ∀ e ∈ entries, Datum.IsPart e.2 body) :
    FailsOnly (Error.Refuses body) (ofMapping entries).outcome := by
  have hargument : ∀ e : Error K, e.IsArgument → e.Refuses body := fun _ => .inl
  rw [ofMapping, Reported.outcome_bind]
  refine FailsOnly.bind ?_ fun unknown _ => ?_
  · rw [Reported.outcome_lift]
    split
    · exact failsOnly_ok _
    · exact failsOnly_error (.inl trivial)
  rw [Reported.outcome_bind, Reported.outcome_forIn_warn, ok_bind, Reported.outcome_lift]
  refine ((failsOnly_checkShapes entries).mono hargument).bind fun _ hshapes => ?_
  refine failsOnly_make hdefault (fun e he => ?_) fun d hd => ?_
  · exact hbody e (List.mem_of_mem_filter he)
  · -- the shapes were checked before unknown keys are dropped, which touches no known one
    have hshape : ("big_m_overrides", .mapping) ∈ shapes := by simp [shapes]
    rw [field?_known hshape] at hd
    exact exists_mapping_of_accepts (accepts_of_checkShapes hshapes hshape hd)

/-- The backend has a name, and rules are counted by an integer. -/
structure IsTyped (s : Settings K) : Prop where
  backend : ∃ name, s.backend = .text name
  maxRemovals : s.maxRemovals.IsInteger

/-- Where the backend and the number of rules come from. -/
theorem eq_of_make {s : Settings K} (h : make entries = .ok s) :
    s.backend = (Datum.field? "backend" entries).getD (.text "SCIP") ∧
      Amount.ofDatum? ((Datum.field? "max_removals" entries).getD (.int 2)) =
        some s.maxRemovals := by
  unfold make at h
  split at h
  · obtain ⟨-, h, -⟩ := bind_eq_ok.mp h
    cases h
  · obtain ⟨epsilon, -, h⟩ := bind_eq_ok.mp h
    obtain ⟨bigM, -, h⟩ := bind_eq_ok.mp h
    split at h
    · obtain ⟨pairs, -, h⟩ := bind_eq_ok.mp h
      obtain ⟨overrides, -, h⟩ := bind_eq_ok.mp h
      obtain ⟨timeLimit, -, h⟩ := bind_eq_ok.mp h
      obtain ⟨tolerance, -, h⟩ := bind_eq_ok.mp h
      obtain ⟨maxWorkers, -, h⟩ := bind_eq_ok.mp h
      obtain ⟨maxRemovals, hcount, h⟩ := bind_eq_ok.mp h
      obtain rfl := Except.ok.inj h
      exact ⟨rfl, (ends_readCount _ _).result _ hcount⟩
    · cases h

/-- Of a mapping the kinds of all values are checked, of defaults they are right. -/
theorem isTyped_of_ofMapping {s : Settings K} (h : (ofMapping entries).outcome = .ok s) :
    s.IsTyped := by
  rw [ofMapping, Reported.outcome_bind] at h
  obtain ⟨unknown, -, h⟩ := bind_eq_ok.mp h
  rw [Reported.outcome_bind, Reported.outcome_forIn_warn, ok_bind, Reported.outcome_lift] at h
  obtain ⟨_, hshapes, h⟩ := bind_eq_ok.mp h
  obtain ⟨hbackend, hcount⟩ := eq_of_make h
  have htext : ("backend", .text) ∈ shapes := by simp [shapes]
  have hinteger : ("max_removals", .integer) ∈ shapes := by simp [shapes]
  rw [field?_known htext] at hbackend
  rw [field?_known hinteger] at hcount
  refine ⟨?_, isInteger_of_accepts (accepts_getD hshapes hinteger rfl) hcount⟩
  rw [hbackend]
  exact exists_text_of_accepts (accepts_getD hshapes htext rfl)

end Make

end Settings

end RuleAudit
