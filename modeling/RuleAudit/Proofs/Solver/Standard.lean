import RuleAudit.Proofs.Program.Closed
import RuleAudit.Proofs.Settings
import RuleAudit.Solver.Standard

/-!
# What the standard solver can come to

The standard backend finds every name of a closed program (`Standard.ends_solve`), and a point that
it finds has a value for every variable, since the search works on boxes of one size
(`Search.hasSize_search`).

Which backends there are is up to the library. It is sound when it refuses nothing but what is no
name, and when all its backends are sound (`Library.IsSound`); the solver that has a sound library
then gives complete points (`Standard.isComplete_guarded`).
-/

namespace RuleAudit

open Outcome

/-! ### Sizes of boxes -/

namespace Search

variable {problem : Problem} {box box' : Box}

theorem size_forceVar (problem : Problem) (c : Constraint) (change : Change) (i : Nat) :
    (forceVar problem c change i).1.size = change.1.size := by
  unfold forceVar
  dsimp only
  split
  · split
    · exact Array.size_setIfInBounds
    · split
      · exact Array.size_setIfInBounds
      · rfl
  · rfl

theorem size_forceLast (problem : Problem) (c : Constraint) (change : Change) :
    (forceLast problem c change).1.size = change.1.size := by
  unfold forceLast
  dsimp only
  split
  · next i a sum hlast =>
    generalize (if a < 0 then (Box.at change.1 i).atLeast ((c.bound - sum) / a)
      else (Box.at change.1 i).atMost ((c.bound - sum) / a)) = sharper
    split
    · rfl
    · split
      · rfl
      · exact Array.size_setIfInBounds
  · rfl

theorem size_foldl_forceVar (problem : Problem) (c : Constraint) (terms : List (Nat × Rat))
    (change : Change) :
    (terms.foldl (fun ch t => forceVar problem c ch t.1) change).1.size = change.1.size := by
  induction terms generalizing change with
  | nil => rfl
  | cons t terms ih => rw [List.foldl_cons, ih, size_forceVar]

theorem size_of_force {c : Constraint} {change after : Change}
    (h : force problem change c = some after) : after.1.size = change.1.size := by
  unfold force at h
  split at h
  · exact Option.some.inj h ▸ rfl
  · split at h
    · exact Option.some.inj h ▸ Array.size_setIfInBounds
    · exact Option.some.inj h ▸ rfl
  · split at h
    · cases h
    · obtain rfl := Option.some.inj h
      rw [size_forceLast, size_foldl_forceVar]

theorem size_of_foldlM_force {constraints : List Constraint} {change after : Change}
    (h : constraints.foldlM (force problem) change = some after) :
    after.1.size = change.1.size := by
  induction constraints generalizing change with
  | nil => exact Option.some.inj h ▸ rfl
  | cons c constraints ih =>
    rw [List.foldlM_cons] at h
    obtain ⟨next, hnext, hrest⟩ := Option.bind_eq_some_iff.mp h
    exact (ih hrest).trans (size_of_force hnext)

/-- Applying constraints keeps the number of variables. -/
theorem size_of_propagate {n : Nat} (h : propagate problem n box = some box') :
    box'.size = box.size := by
  induction n generalizing box with
  | zero => exact Option.some.inj h ▸ rfl
  | succ n ih =>
    rw [propagate] at h
    obtain ⟨⟨next, changed⟩, hnext, h⟩ := Option.bind_eq_some_iff.mp h
    have hsize : next.size = box.size := size_of_foldlM_force hnext
    cases changed with
    | true => exact (ih h).trans hsize
    | false => exact Option.some.inj h ▸ hsize

theorem size_closeAll (problem : Problem) (box : Box) : (closeAll problem box).size = box.size :=
  Array.size_mapIdx

theorem size_complete (box : Box) (vars : List Nat) (values : List Rat) :
    (complete box vars values).size = box.size := by
  suffices hs : ∀ (entries : List (Nat × Rat)) (p : Point),
      (entries.foldl (fun p e => p.set! e.1 e.2) p).size = p.size from
    (hs _ _).trans Array.size_map
  intro entries
  -- every value is written into the point that the last one left
  induction entries with
  | nil => exact fun p => rfl
  | cons e entries ih => exact fun p => (ih _).trans Array.size_setIfInBounds

/-- A finding about a box with `n` variables: its point has a value for each. -/
def Finding.HasSize (n : Nat) : Finding → Prop
  | found p _ => p.size = n
  | _ => True

theorem Finding.HasSize.orElse {n : Nat} {first : Finding} {later : Unit → Finding}
    (hfirst : first.HasSize n) (hlater : (later ()).HasSize n) (goalless : Bool) :
    (first.orElse goalless later).HasSize n := by
  cases first with
  | empty => exact hlater
  | unbounded => trivial
  | found p v =>
    rw [Finding.orElse]
    split
    · exact hfirst
    · split
      · exact hfirst
      · trivial
      · next q w hq =>
        rw [hq] at hlater
        split
        · exact hlater
        · exact hfirst

theorem hasSize_decideSettled (problem : Problem) (box : Box) (objective : List (Nat × Rat)) :
    (decideSettled problem box objective).HasSize box.size := by
  unfold decideSettled
  dsimp only
  split
  · split
    · exact size_complete _ _ _
    · trivial
  · split
    · trivial
    · trivial
    · exact size_complete _ _ _

/-- The search keeps the number of variables. -/
theorem hasSize_search (problem : Problem) (n : Nat) (box : Box) :
    (search problem n box).HasSize box.size := by
  induction n generalizing box with
  | zero =>
    rw [search, ← size_closeAll problem box]
    exact hasSize_decideSettled _ _ _
  | succ n ih =>
    rw [search]
    split
    · trivial
    · next next hnext =>
      rw [← size_of_propagate hnext]
      split
      · rw [← size_closeAll problem next]
        exact hasSize_decideSettled _ _ _
      · next i _ =>
        split
        · trivial
        · -- fixing a binary variable either way changes one entry of the box
          have hbox : ∀ x, (search problem n (next.set! i (.single x))).HasSize next.size :=
            fun x => (Array.size_setIfInBounds : (next.set! i (.single x)).size = _) ▸ ih _
          exact (hbox 1).orElse (hbox 0) _

theorem hasSize_solve (problem : Problem) (box : Box) : (solve problem box).HasSize box.size := by
  unfold solve
  split
  · trivial
  · exact hasSize_search _ _ _

end Search

namespace Standard

variable {K : Type} [Scalar K] {E : Error K → Prop}

/-! ### Reading closed programs -/

section Reading

variable {names : List String}

theorem failsOnly_numberOf {name : String} (h : name ∈ names) :
    FailsOnly E (numberOf names name) := by
  unfold numberOf
  split
  · exact failsOnly_ok _
  · next hnone =>
    exact absurd (List.findIdx?_eq_none_iff.mp hnone name h) (by simp)

theorem failsOnly_sumOf {coefs : List (String × K)} (h : ∀ e ∈ coefs, e.1 ∈ names) :
    FailsOnly E (sumOf names coefs) :=
  (failsOnly_mapM fun e he => (failsOnly_numberOf (h e he)).map _).map _

theorem failsOnly_constraintsOf {r : Row K} (h : r.UsesOnly names) (isBinary : String → Bool)
    (slack : Rat) : FailsOnly E (constraintsOf names isBinary slack r) := by
  refine (failsOnly_sumOf h).bind fun flat _ => ?_
  split
  · exact failsOnly_ok _
  · next s hs =>
    have hcoefs : r.coefs = r.terms ++ [(s.selector, s.relief)] := by rw [Row.coefs, hs]
    rw [Row.UsesOnly, hcoefs, List.forall_mem_append, List.forall_mem_singleton] at h
    refine failsOnly_ite (fun _ => ?_) fun _ => failsOnly_ok _
    exact (failsOnly_numberOf h.2).bind fun _ _ => (failsOnly_sumOf h.1).map _

/-- A closed program is read with all its variables. -/
theorem ends_read {p : Program K} (hp : p.IsClosed) (slack : Rat) :
    Ends E (fun m => DecisionVar.names p.vars ⊆ m.names ∧ m.box.size = m.names.length)
      (Model.read p slack) := by
  have hnames : DecisionVar.names p.vars ⊆
      (Assoc.ofPairs (p.vars.map fun v => (v.name, v))).map (·.1) := fun n hn => by
    rw [Assoc.mem_keys_ofPairs, List.map_map]
    exact hn
  refine (failsOnly_mapM fun r hr => failsOnly_constraintsOf ((hp.rows r hr).mono hnames) _
    _).ends.bind fun constraints _ => ?_
  refine Ends.bind (P := fun _ => True) ?_ fun objective _ => ends_ok ⟨hnames, by simp⟩
  refine (failsOnly_sumOf fun e he => ?_).ends.imp_result fun _ _ => trivial
  obtain ⟨e', he', heq⟩ := List.mem_map.mp
    (Assoc.mem_keys_ofPairs.mp (List.mem_map_of_mem (f := (·.1)) he))
  exact hnames (heq ▸ hp.objective e' he')

end Reading

/-! ### Points -/

variable {p : Program K} (hp : p.IsClosed)

include hp

theorem ends_attempt (slack : Rat) : Ends E (·.Covers p) (attempt p slack) := by
  refine (ends_read hp slack).bind fun m ⟨hvars, hsize⟩ => ends_ok ?_
  have hfound := Search.hasSize_solve m.problem m.box
  split
  · next x value hx =>
    intro _ d hd
    rw [hx] at hfound
    have hlength : m.names.length ≤ (x.toList.map (Scalar.ofRat (K := K))).length := by
      rw [List.length_map, Array.length_toList, ← hsize, show x.size = m.box.size from hfound]
    rw [List.map_fst_zip hlength]
    exact hvars (List.mem_map_of_mem hd)
  · exact fun h => nomatch h
  · exact fun h => nomatch h

theorem ends_attemptEach (slacks : List Rat) : Ends E (·.Covers p) (attemptEach p slacks) := by
  induction slacks with
  | nil => exact ends_ok fun h => nomatch h
  | cons slack slacks ih =>
    exact (ends_attempt hp slack).bind fun found hfound =>
      ends_ite (fun _ => ih) fun _ => ends_ok hfound

/-- The standard solver solves every closed program. -/
theorem ends_solve : Ends E (·.Covers p) (solve p) := by
  refine (ends_attempt hp 0).bind fun found hfound => ends_ite (fun _ => ?_) fun _ => ends_ok hfound
  exact (ends_attempt hp slack).bind fun relaxed hrelaxed =>
    ends_ite (fun _ => ends_ok hrelaxed) fun _ => ends_attemptEach hp slacks

omit hp

end Standard

/-! ### Backends by name -/

section Library

variable {K : Type} [Scalar K]

/-- A backend has an answer for every closed program, with a value for every variable if there is a
point, or gives no verdict. -/
def Backend.IsSound (backend : Backend K) : Prop :=
  ∀ p, p.IsClosed → Ends (fun e => ∃ fault, e = .solver fault) (·.Covers p) (backend p)

/-- A library only refuses what is no text, and its backends are sound. It may have none. -/
structure Library.IsSound (library : Library K) : Prop where
  refuses : ∀ d e, library d = .error e → e.IsArgument ∧ ∀ name, d ≠ .text name
  backends : ∀ d backend, library d = .ok (some backend) → backend.IsSound

namespace Standard

/-- The standard backend has an answer for every closed program. -/
theorem isSound_solve : Backend.IsSound (solve (K := K)) := fun _ hp => ends_solve hp

theorem isSound_library : (library (K := K)).IsSound where
  refuses d e h := by
    unfold library at h
    split at h
    · cases h
    · next hother =>
      obtain rfl := Except.error.inj h
      exact ⟨trivial, fun name => hother name⟩
  backends d backend h := by
    unfold library at h
    split at h
    · obtain ⟨-, hbackend⟩ := Option.ite_none_right_eq_some.mp (Except.ok.inj h)
      exact Option.some.inj hbackend ▸ isSound_solve
    · cases h

variable {library : Library K} {backend : Backend K} {settings : Settings K} {p : Program K}

theorem guarded_refused {e : Error K} (h : library settings.backend = .error e) :
    guarded library settings p = .error e := by
  rw [guarded, h]
  rfl

theorem guarded_unavailable (h : library settings.backend = .ok none) :
    guarded library settings p = .error (.solver (.unavailable settings.backend.label)) := by
  rw [guarded, h]
  rfl

theorem guarded_available (h : library settings.backend = .ok (some backend)) :
    guarded library settings p = checkLimits settings >>= fun _ => backend p := by
  rw [guarded, h]
  rfl

variable (hlibrary : library.IsSound)

include hlibrary

/-- The solver that has a sound library has an answer for every closed program or gives no verdict,
unless a limit is refused or the backend has no name to look it up by. -/
theorem ends_guarded (settings : Settings K) (hp : p.IsClosed) :
    Ends (fun e => (∃ fault, e = .solver fault) ∨ checkLimits settings = .error e ∨
      library settings.backend = .error e) (·.Covers p) (guarded library settings p) := by
  cases hfound : library settings.backend with
  | error e =>
    rw [guarded_refused hfound]
    exact ends_error (.inr (.inr rfl))
  | ok found =>
    cases found with
    | none =>
      rw [guarded_unavailable hfound]
      exact ends_error (.inl ⟨_, rfl⟩)
    | some backend =>
      rw [guarded_available hfound]
      cases checkLimits settings with
      | error e => exact ends_error (.inr (.inl rfl))
      | ok _ => exact (hlibrary.backends _ _ hfound p hp).imp_error fun _ => .inl

theorem isComplete_guarded : (guarded library).IsComplete := fun settings _ hp =>
  (ends_guarded hlibrary settings hp).result

end Standard

end Library

end RuleAudit
