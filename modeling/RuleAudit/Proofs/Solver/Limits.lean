import RuleAudit.Binary64
import RuleAudit.Proofs.Solver.Standard

/-!
# Limits that a solver can hold

Settings only test a limit on time for being positive, while the solver holds it as a number of
milliseconds in 64 bits, and a tolerance as one of its own numbers. Everything else about settings
is fit for the solver: for limits that fit, every program that is made of rules is solved or given
up, with whichever backend of a library (`Standard.exists_guarded_iff`). Any other limit is refused
with an error that no caller expects (`Settings.Refuses`).
-/

namespace RuleAudit

open Outcome

variable {K : Type} [Scalar K]

/-! ### Limits -/

namespace Amount

/-- An amount of seconds in milliseconds, if these are a number. -/
def milliseconds? : Amount K → Option Rat
  | flag b => some (if b then 1000 else 0)
  | int n => some (n * 1000)
  | real x => Scalar.toRat? (x * Scalar.ofRat 1000)

/-- An amount is one of the solver's numbers, or can be made one. -/
def IsNumber : Amount K → Prop
  | int n => (Scalar.ofInt? n : Option K).isSome = true
  | _ => True

end Amount

namespace Settings

/-- The limit on time, if there is one, fits 64 bits. -/
def FitsTime (s : Settings K) : Prop :=
  ∀ t ∈ s.timeLimit, ∃ q ∈ t.milliseconds?, q.ceil < 2 ^ 63

/-- The solver can hold both limits. -/
structure FitsSolver (s : Settings K) : Prop where
  time : s.FitsTime
  tolerance : ∀ t ∈ s.tolerance, t.IsNumber

/-- The errors with which a limit that does not fit is refused. -/
inductive Refuses (s : Settings K) : Error K → Prop
  | undefined {x : K} (h : s.timeLimit = some (.real x))
      (hx : Scalar.toRat? (x * Scalar.ofRat 1000) = none) (hpos : ¬ 0 < x * Scalar.ofRat 1000) :
      Refuses s (.invalid .undefinedLimit)
  | infinite {x : K} (h : s.timeLimit = some (.real x))
      (hx : Scalar.toRat? (x * Scalar.ofRat 1000) = none) (hpos : 0 < x * Scalar.ofRat 1000) :
      Refuses s (.overflow .infiniteLimit)
  | huge {t : Amount K} {q : Rat} (h : s.timeLimit = some t) (ht : t.milliseconds? = some q)
      (hq : 2 ^ 63 ≤ q.ceil) : Refuses s (.overflow .hugeLimit)
  | tolerance {n : Int} (h : s.tolerance = some (.int n))
      (hn : (Scalar.ofInt? n : Option K) = none) : Refuses s (.mistyped .solverTolerance)

variable {s : Settings K}

/-- Limits that fit are not refused. -/
theorem FitsSolver.not_refuses (h : s.FitsSolver) {e : Error K} : ¬ s.Refuses e := by
  have htime : ∀ t, s.timeLimit = some t → ∃ q, t.milliseconds? = some q ∧ q.ceil < 2 ^ 63 :=
    fun t ht => h.time t ht
  rintro (⟨hx, hnone, -⟩ | ⟨hx, hnone, -⟩ | ⟨ht, hq, hhuge⟩ | ⟨hn, hnone⟩)
  · obtain ⟨q, hq, -⟩ := htime _ hx
    cases hnone.symm.trans hq
  · obtain ⟨q, hq, -⟩ := htime _ hx
    cases hnone.symm.trans hq
  · obtain ⟨q', hq', hlt⟩ := htime _ ht
    obtain rfl := Option.some.inj (hq.symm.trans hq')
    exact absurd hlt (not_lt.mpr hhuge)
  · have hsome : (Scalar.ofInt? _ : Option K).isSome = true := h.tolerance _ hn
    rw [hnone] at hsome
    cases hsome

end Settings

/-! ### Checks -/

namespace Standard

theorem ends_checkTimeLimit (s : Settings K) :
    Ends s.Refuses (fun _ => s.FitsTime) (checkTimeLimit s) := by
  have hcheck : ∀ t q, s.timeLimit = some t → t.milliseconds? = some q →
      Ends s.Refuses (fun _ => s.FitsTime)
        (if q.ceil < (Nat.pow 2 63 : Int) then .ok () else .error (.overflow .hugeLimit)) := by
    intro t q ht hq
    refine ends_ite (fun hlt => ends_ok fun t' ht' => ?_) fun hle => ends_error ?_
    · obtain rfl := Option.some.inj (ht.symm.trans ht')
      exact ⟨q, hq, hlt⟩
    · exact .huge ht hq (not_lt.mp hle)
  unfold checkTimeLimit
  dsimp only
  split
  · next hnone => exact ends_ok fun t ht => nomatch hnone.symm.trans ht
  · next b hflag =>
    refine ends_ok fun t ht => ?_
    obtain rfl := Option.some.inj (hflag.symm.trans ht)
    refine ⟨_, rfl, ?_⟩
    cases b <;> decide
  · next n hint => exact hcheck _ _ hint rfl
  · next x hreal =>
    split
    · next q hq => exact hcheck _ q hreal hq
    · next hnone =>
      split
      · next hpos => exact ends_error (.infinite hreal hnone hpos)
      · next hpos => exact ends_error (.undefined hreal hnone hpos)

theorem ends_checkTolerance (s : Settings K) :
    Ends s.Refuses (fun _ => ∀ t ∈ s.tolerance, t.IsNumber) (checkTolerance s) := by
  unfold checkTolerance
  split
  · next n hint =>
    refine ends_ite (fun hsome => ends_ok fun t ht => ?_) fun hnone => ends_error ?_
    · obtain rfl := Option.some.inj (hint.symm.trans ht)
      exact hsome
    · exact .tolerance hint (Option.not_isSome_iff_eq_none.mp hnone)
  · next hother =>
    refine ends_ok fun t ht => ?_
    cases t with
    | int n => exact absurd ht (hother n)
    | flag b => trivial
    | real x => trivial

/-- Limits that do not fit are refused. -/
theorem ends_checkLimits (s : Settings K) :
    Ends s.Refuses (fun _ => s.FitsSolver) (checkLimits s) :=
  (ends_checkTimeLimit s).bind fun _ htime =>
    (ends_checkTolerance s).imp_result fun _ htolerance => ⟨htime, htolerance⟩

theorem checkLimits_eq_ok_iff {s : Settings K} : checkLimits s = .ok () ↔ s.FitsSolver := by
  refine ⟨(ends_checkLimits s).result (), fun hfits => ?_⟩
  cases hcheck : checkLimits s with
  | ok _ => rfl
  | error e => exact absurd ((ends_checkLimits s).failsOnly e hcheck) hfits.not_refuses

/-! ### Solving behind the checks -/

variable {library : Library K} {p : Program K} {s : Settings K}

/-- An error of another kind is neither a solution nor a failure of the solver. -/
theorem not_solved_of_error {e : Error K} (h : ∀ fault, e ≠ .solver fault) :
    ¬ ((∃ found, (.error e : Except (Error K) (Solution K)) = .ok found) ∨
      ∃ fault, (.error e : Except (Error K) (Solution K)) = .error (.solver fault)) := by
  rintro (⟨found, hfound⟩ | ⟨fault, hfault⟩)
  · cases hfound
  · exact h fault (Except.error.inj hfault)

theorem solved_of_isSound {backend : Backend K} (hbackend : backend.IsSound) (hp : p.IsClosed) :
    (∃ found, backend p = .ok found) ∨ ∃ fault, backend p = .error (.solver fault) := by
  cases hfound : backend p with
  | ok found => exact .inl ⟨found, rfl⟩
  | error e =>
    obtain ⟨fault, rfl⟩ := (hbackend p hp).failsOnly e hfound
    exact .inr ⟨fault, rfl⟩

/-- A closed program is solved or given up exactly when there is no backend to hand it on to, or one
that can hold the limits. -/
theorem exists_guarded_iff (hlibrary : library.IsSound) (hp : p.IsClosed) :
    ((∃ found, guarded library s p = .ok found) ∨
        ∃ fault, guarded library s p = .error (.solver fault)) ↔
      library s.backend = .ok none ∨
        (∃ backend, library s.backend = .ok (some backend)) ∧ s.FitsSolver := by
  cases hlookup : library s.backend with
  | error e =>
    obtain ⟨hargument, -⟩ := hlibrary.refuses _ _ hlookup
    rw [guarded_refused hlookup]
    refine iff_of_false (not_solved_of_error ?_) (by simp)
    rintro fault rfl
    exact hargument
  | ok lookup =>
    cases lookup with
    | none => exact iff_of_true (.inr ⟨_, guarded_unavailable hlookup⟩) (.inl rfl)
    | some backend =>
      rw [guarded_available hlookup, ← checkLimits_eq_ok_iff]
      cases hcheck : checkLimits s with
      | ok _ =>
        exact iff_of_true (solved_of_isSound (hlibrary.backends _ _ hlookup) hp)
          (.inr ⟨⟨backend, rfl⟩, rfl⟩)
      | error e =>
        have hrefuses := (ends_checkLimits s).failsOnly e hcheck
        refine iff_of_false (not_solved_of_error ?_) (by simp)
        rintro fault rfl
        cases hrefuses

theorem failsOnly_guarded (hlibrary : library.IsSound) (hp : p.IsClosed) :
    FailsOnly (fun e => (∃ fault, e = .solver fault) ∨ s.Refuses e ∨
      (e.IsArgument ∧ ∀ name, s.backend ≠ .text name)) (guarded library s p) :=
  (ends_guarded hlibrary s hp).failsOnly.mono fun e =>
    Or.imp_right (Or.imp ((ends_checkLimits s).failsOnly e) (hlibrary.refuses _ e))

/-- **Settings reach the solver.** Every program that is made of rules can be read by the solver
with any slack, since it uses no name without a variable. Whatever the settings are and whichever
backends there are, solving it gives a solution or a failure of the solver exactly when there is no
backend of the name in the settings, or there is one and it can hold the two limits. Any other error
says which of them it cannot hold, or that the backend's name is no text. -/
theorem solves_within_limits (hlibrary : library.IsSound) {rules : List (Rule K)}
    (hp : Program.ofRules rules s = .ok p) :
    (∀ slack, ∃ model, Model.read p slack = .ok model) ∧
    (((∃ found, guarded library s p = .ok found) ∨
        ∃ fault, guarded library s p = .error (.solver fault)) ↔
      library s.backend = .ok none ∨
        (∃ backend, library s.backend = .ok (some backend)) ∧ s.FitsSolver) ∧
    ∀ e, guarded library s p = .error e → (∃ fault, e = .solver fault) ∨ s.Refuses e ∨
      (e.IsArgument ∧ ∀ name, s.backend ≠ .text name) := by
  have hclosed : p.IsClosed := (Program.ends_ofRules rules s).result p hp
  refine ⟨fun slack => ?_, exists_guarded_iff hlibrary hclosed, failsOnly_guarded hlibrary hclosed⟩
  cases hread : Model.read p slack with
  | ok model => exact ⟨model, rfl⟩
  | error e =>
    have hnone : FailsOnly (fun _ => False) (Model.read p slack) :=
      (ends_read hclosed slack).failsOnly
    exact (hnone e hread).elim

/-- A bound, solved within a minute by the backend of the default settings. -/
theorem solves_within_limits_minute :
    let bound : Clause Float := .linear (.canonical [(⟨"x", by decide⟩, 1)] .ge 1)
    ∃ low s p, Rule.make (.text "low") (.atom bound) = .ok low ∧
      Settings.make [(.text "time_limit", .int 60)] = .ok s ∧ Program.ofRules [low] s = .ok p ∧
      (Standard.library (K := Float)).IsSound ∧
      Standard.library s.backend = .ok (some solve) ∧ s.FitsSolver ∧
      (∃ model, Model.read p slack = .ok model) ∧
      ((∃ found, solver s p = .ok found) ∨ ∃ fault, solver s p = .error (.solver fault)) := by
  intro bound
  have hsome : (Rule.make (.text "low") (.atom bound)).toOption.any (fun low =>
      (Settings.make [(.text "time_limit", .int 60)]).toOption.any fun s =>
        (checkLimits s).toOption.isSome && (Program.ofRules [low] s).toOption.isSome) = true := by
    decide +kernel
  obtain ⟨low, hlow, hsettings⟩ := exists_of_any_toOption hsome
  obtain ⟨s, hs, hall⟩ := exists_of_any_toOption hsettings
  obtain ⟨hlimits, hprogram⟩ := Bool.and_eq_true_iff.mp hall
  have hbackend : s.backend = .text "SCIP" := (Settings.eq_of_make hs).1
  have hlookup : Standard.library s.backend = .ok (some solve) := by
    rw [hbackend]
    rfl
  have hfits : s.FitsSolver :=
    checkLimits_eq_ok_iff.mp (eq_ok_of_toOption (Option.eq_some_of_isSome hlimits))
  have hp := eq_ok_of_toOption (Option.eq_some_of_isSome hprogram)
  obtain ⟨hread, hsolved, -⟩ := solves_within_limits isSound_library hp
  exact ⟨low, s, _, hlow, hs, hp, isSound_library, hlookup, hfits, hread slack,
    hsolved.mpr (.inr ⟨⟨solve, hlookup⟩, hfits⟩)⟩

/-- The number that did not fit, if an operation ended with one. -/
def overflow? {α : Type} : Except (Error K) α → Option Overflow
  | .error (.overflow n) => some n
  | _ => none

theorem eq_error_of_overflow? {α : Type} {x : Except (Error K) α} {n : Overflow}
    (h : overflow? x = some n) : x = .error (.overflow n) := by
  unfold overflow? at h
  split at h
  · rw [Option.some.inj h]
  · cases h

/-- A limit on time that is infinite passes for positive, and no solver can hold it. -/
theorem infinite_limit_refused :
    let bound : Clause Float := .linear (.canonical [(⟨"x", by decide⟩, 1)] .ge 1)
    ∃ low s p, Rule.make (.text "low") (.atom bound) = .ok low ∧
      Settings.make [(.text "time_limit", .real (1 / 0))] = .ok s ∧
      Program.ofRules [low] s = .ok p ∧ solver s p = .error (.overflow .infiniteLimit) := by
  intro bound
  have hsome : (Rule.make (.text "low") (.atom bound)).toOption.any (fun low =>
      (Settings.make [(.text "time_limit", .real (1 / 0))]).toOption.any fun s =>
        (Program.ofRules [low] s).toOption.any fun p =>
          decide (overflow? (solver s p) = some .infiniteLimit)) = true := by
    decide +kernel
  obtain ⟨low, hlow, hsettings⟩ := exists_of_any_toOption hsome
  obtain ⟨s, hs, hprogram⟩ := exists_of_any_toOption hsettings
  obtain ⟨p, hp, hrefused⟩ := exists_of_any_toOption hprogram
  exact ⟨low, s, p, hlow, hs, hp, eq_error_of_overflow? (of_decide_eq_true hrefused)⟩

end Standard

end RuleAudit
