import RuleAudit.Proofs.Query.Endings
import RuleAudit.Proofs.Service.Opening
import RuleAudit.Proofs.Solver.Limits

/-!
# Answers of the service

Every request is answered, with a status that says whose fault it is if there is no result. Two
kinds of errors are passed on instead (`Service.answers_or_passes_on`): a number of the body that is
out of range, and a limit that the backend cannot hold. Any library of backends that solve programs
will do, whichever names it knows.
-/

namespace RuleAudit

open Outcome

/-- A status says that there is a result, or whose fault it is if there is none. -/
def Service.Response.IsPlain {K : Type} (r : Response K) : Prop :=
  r.status ∈ [200, 404, 422, 503]

variable {K : Type} [Scalar K]

/-! ### Writing rules -/

namespace Tree

variable {E : Error K → Prop}

theorem failsOnly_ofClause {c : Clause K} (hc : c.IsProper) : FailsOnly E (ofClause c) := by
  cases c with
  | linear c => exact failsOnly_ok _
  | membership c => exact failsOnly_ok _
  | foreign d => exact hc.elim

mutual
theorem failsOnly_ofExpr : ∀ e : Expr K, e.IsProper → FailsOnly E (ofExpr e)
  | .const _, _ => failsOnly_ok _
  | .atom c, h => by
    obtain ⟨_, ⟨⟩, hc⟩ := h (.inl c) (List.mem_singleton_self _)
    exact failsOnly_ofClause hc
  | .and args, h => (failsOnly_ofExprs args h).map _
  | .or args, h => (failsOnly_ofExprs args h).map _
  | .not e, h => (failsOnly_ofExpr e h).map _
  | .ifThen a c, h =>
    (failsOnly_ofExpr a fun leaf hleaf => h leaf (List.mem_append_left _ hleaf)).bind fun _ _ =>
      (failsOnly_ofExpr c fun leaf hleaf => h leaf (List.mem_append_right _ hleaf)).map _
  | .foreign d, h => by
    obtain ⟨_, ⟨⟩, -⟩ := h (.inr d) (List.mem_singleton_self _)

theorem failsOnly_ofExprs : ∀ es : List (Expr K),
    (∀ leaf ∈ Expr.leavesEach es, ∃ c : Clause K, leaf = .inl c ∧ c.IsProper) →
      FailsOnly E (ofExprs es)
  | [], _ => failsOnly_ok _
  | e :: rest, h =>
    (failsOnly_ofExpr e fun leaf hleaf => h leaf (List.mem_append_left _ hleaf)).bind fun _ _ =>
      (failsOnly_ofExprs rest fun leaf hleaf => h leaf (List.mem_append_right _ hleaf)).map _
end

/-- Rules that are made of clauses can be written. -/
theorem failsOnly_ofRules {s : RuleSet K} (hs : s.IsProper) : FailsOnly E (ofRules s) :=
  failsOnly_mapM fun r hr => (failsOnly_ofExpr r.expr (hs r hr)).map _

end Tree

namespace Service

/-! ### Results -/

/-- What can go wrong when a body is answered. -/
inductive Fails (solver : Solver K) (body : Option (Datum K)) (e : Error K) : Prop
  | refused (h : Tree.isSkippable e = true) : Fails solver body e
  | query {withBindings : Bool} {p : Payload K} {settings : Settings K}
    (hp : Payload.read withBindings body = .ok p)
    (hsettings : (Settings.ofMapping p.settings).outcome = .ok settings)
    (h : (⟨solver, settings⟩ : Oracle K).Fails e) : Fails solver body e
  | oversized {b : Datum K} (hb : b ∈ body) (h : e.IsOverflowIn b) : Fails solver body e

omit [Scalar K] in
theorem isPlain_ok (fields : List (String × Datum K)) : (ok fields).IsPlain :=
  List.mem_cons_self

theorem ends_aboutRule {E : Error K → Prop} {s : RuleSet K} {name key : String}
    {ask : Reported K (List String)} (h : s.contains name = true → FailsOnly E ask.outcome) :
    Ends E Response.IsPlain (aboutRule s name key ask).outcome := by
  unfold aboutRule
  split
  · next hname => exact Reported.ends_bind (h hname).ends fun _ _ => ends_ok (isPlain_ok _)
  · exact ends_ok (List.mem_cons_of_mem _ List.mem_cons_self)

section Results

variable {o : Oracle K} (ho : o.solver.IsComplete) {s : RuleSet K}

include ho

theorem ends_feasibility (s : RuleSet K) : Ends o.Fails Response.IsPlain (feasibility s o) := by
  refine (Oracle.ends_solve ho s.rules _).failsOnly.ends.bind fun found _ => ?_
  refine ends_ite (fun _ => ends_ok (isPlain_ok _)) fun _ => ?_
  exact (Oracle.failsOnly_culprits ho s).ends.bind fun _ _ => ends_ok (isPlain_ok _)

theorem ends_simplified (hs : s.IsProper) (bindings : List (Datum K × Datum K)) :
    Ends (fun e => o.Fails e ∨ Assignment.Overflows (bindings.map fun b => (b.1.label, b.2)) e)
      Response.IsPlain (simplified s o bindings).outcome :=
  Reported.ends_bind (Oracle.ends_simplify ho hs _) fun _ hresult =>
    Reported.ends_bind (Tree.failsOnly_ofRules hresult).ends fun _ _ => ends_ok (isPlain_ok _)

end Results

/-! ### Routes -/

section Routes

variable {solver : Solver K} {body : Option (Datum K)} (hdefault : Settings.HasDefaults K)
  (hsolver : solver.IsComplete)

include hdefault

theorem ends_onBody {withBindings : Bool}
    {ask : Payload K → RuleSet K × Oracle K → Reported K (Response K)}
    (hask : ∀ p, Payload.read withBindings body = .ok p → ∀ s o, s.IsProper → o.solver = solver →
      (Settings.ofMapping p.settings).outcome = .ok o.settings →
        Ends (Fails solver body) Response.IsPlain (ask p (s, o)).outcome) :
    Ends (Fails solver body) Response.IsPlain (match Payload.read withBindings body with
      | .error findings => (return unfit findings : Reported K (Response K))
      | .ok payload => opened solver payload >>= ask payload).outcome := by
  cases hread : Payload.read withBindings body with
  | error findings => exact ends_ok (by simp [Response.IsPlain, unfit])
  | ok p =>
    obtain ⟨b, hb, hp⟩ := Payload.exists_isFrom hread
    have hopened := (ends_opened hdefault solver hp).imp_error fun e he =>
      show Fails solver body e from he.elim .refused (.oversized hb)
    exact Reported.ends_bind hopened fun ⟨s, o⟩ ⟨hs, ho, hsettings⟩ =>
      hask p hread s o hs ho hsettings

include hsolver

theorem ends_onRoute (route : Route) :
    Ends (Fails solver body) Response.IsPlain (onRoute solver route body).outcome := by
  cases route with
  | ping => exact ends_ok (isPlain_ok _)
  | feasibility =>
    refine ends_onBody hdefault fun p hp s o _ ho hsettings => ?_
    subst ho
    exact (ends_feasibility hsolver s).imp_error fun _ => .query hp hsettings
  | impliedBy name =>
    refine ends_onBody hdefault fun p hp s o _ ho hsettings => ends_aboutRule fun hname => ?_
    subst ho
    exact (Oracle.failsOnly_impliedBy hsolver hname).mono fun _ => .query hp hsettings
  | contradictedBy name =>
    refine ends_onBody hdefault fun p hp s o _ ho hsettings => ends_aboutRule fun hname => ?_
    subst ho
    exact (Oracle.failsOnly_contradictedBy hsolver hname).mono fun _ => .query hp hsettings
  | simplify =>
    refine ends_onBody hdefault fun p hp s o hs ho hsettings => ?_
    subst ho
    refine (ends_simplified hsolver hs p.bindings).imp_error fun e he => ?_
    refine he.elim (.query hp hsettings) fun ⟨he, b, hb, hsize⟩ => ?_
    obtain ⟨d, hd, hfrom⟩ := Payload.exists_isFrom hp
    obtain ⟨b', hb', rfl⟩ := List.mem_map.mp hb
    exact .oversized hd ⟨he, b'.2, hfrom.bindings b' hb', hsize⟩

end Routes

/-! ### Errors that are passed on -/

/-- The errors that nobody answers: a number of the body is out of range, or the backend cannot hold
a limit among the body's settings. -/
inductive PassedOn (body : Option (Datum K)) : Error K → Prop
  | oversized {b d : Datum K} (hb : b ∈ body) (hd : Datum.IsPart d b) (h : d.IsOversized) :
    PassedOn body (.overflow .integer)
  | limits {withBindings : Bool} {p : Payload K} {settings : Settings K} {e : Error K}
    (hp : Payload.read withBindings body = .ok p)
    (hsettings : (Settings.ofMapping p.settings).outcome = .ok settings)
    (h : Standard.checkLimits settings = .error e) : PassedOn body e

section Answers

variable {e : Error K}

theorem ends_answerTo_of_isSkippable {E : Error K → Prop} (h : Tree.isSkippable e = true) :
    Ends E Response.IsPlain (answerTo e) := by
  cases e with
  | definition site f => exact ends_ok (by simp [Response.IsPlain])
  | encoding site obstacle => exact ends_ok (by simp [Response.IsPlain])
  | _ => cases h

theorem ends_answerTo_solver {E : Error K → Prop} (fault : SolverFault) :
    Ends E Response.IsPlain (answerTo (.solver fault)) :=
  ends_ok (by simp [Response.IsPlain])

theorem answerTo_of_checkLimits {settings : Settings K}
    (h : Standard.checkLimits settings = .error e) : answerTo e = .error e := by
  -- no status says that a number is out of range, of a wrong type or undefined
  cases (Standard.ends_checkLimits settings).failsOnly e h <;> rfl

variable {library : Library K} (hlibrary : library.IsSound) {body : Option (Datum K)}

include hlibrary

theorem ends_answerTo (h : Fails (Standard.guarded library) body e) :
    Ends (PassedOn body) Response.IsPlain (answerTo e) := by
  cases h with
  | refused h => exact ends_answerTo_of_isSkippable h
  | oversized hb h =>
    obtain ⟨rfl, d, hd, hsize⟩ := h
    exact ends_error (.oversized hb hd hsize)
  | query hp hsettings h =>
    obtain ⟨hbackend, hlimit⟩ := Settings.isTyped_of_ofMapping hsettings
    cases h with
    | refused h => exact ends_answerTo_of_isSkippable h
    | undecided fault => exact ends_answerTo_solver fault
    | unfinished rounds hs =>
      -- the answer shows the last rules, which can be written because they are made of clauses
      exact (Tree.failsOnly_ofRules hs).ends.bind fun _ _ => ends_ok (by simp [Response.IsPlain])
    | uncounted h =>
      obtain ⟨most, hmost⟩ := Settings.exists_removals hlimit _
      cases hmost.symm.trans h
    | raised hclosed h =>
      obtain ⟨fault, rfl⟩ | hlimits | hrefused :=
        (Standard.ends_guarded hlibrary _ hclosed).failsOnly e h
      · exact ends_answerTo_solver fault
      · rw [answerTo_of_checkLimits hlimits]
        exact ends_error (.limits hp hsettings hlimits)
      · -- the backend of a body has a name, so it is looked up
        obtain ⟨name, hname⟩ := hbackend
        exact absurd hname ((hlibrary.refuses _ e hrefused).2 name)

theorem ends_answer (hdefault : Settings.HasDefaults K) (route : Route) (body : Option (Datum K)) :
    Ends (PassedOn body) Response.IsPlain (answer (Standard.guarded library) route body).outcome :=
  Reported.ends_tryCatch (ends_onRoute hdefault (Standard.isComplete_guarded hlibrary) route)
    fun _ he => ends_answerTo hlibrary he

end Answers

/-! ### Answers -/

/-- Doubles hold the numbers that are used when none are given. -/
theorem hasDefaults_float : Settings.HasDefaults Float := by
  have hok : (Settings.default (K := Float)).toOption.any (fun _ => true) = true := by
    decide +kernel
  obtain ⟨settings, hsettings, -⟩ := exists_of_any_toOption hok
  exact ⟨settings, hsettings⟩

/-- **Requests are answered.** Whatever a body is made of and whichever backends there are, a
request on a route is answered with one of four statuses, unless a number of the body is out of
range or the backend cannot hold a limit among its settings. -/
theorem answers_or_passes_on {library : Library Float} (hlibrary : library.IsSound) (route : Route)
    (body : Option (Datum Float)) :
    (∃ r, (answer (Standard.guarded library) route body).outcome = .ok r ∧
      r.status ∈ [200, 404, 422, 503]) ∨
    ∃ e, (answer (Standard.guarded library) route body).outcome = .error e ∧ PassedOn body e := by
  obtain ⟨herror, hresult⟩ := ends_answer hlibrary hasDefaults_float route body
  cases hanswer : (answer (Standard.guarded library) route body).outcome with
  | ok r => exact .inl ⟨r, rfl, hresult r hanswer⟩
  | error e => exact .inr ⟨e, rfl, herror e hanswer⟩

/-- A body with a rule that bounds `x` from below. -/
def boundBody (n : Int) : Datum Float :=
  .mapping [(.text "rules", .list [Tree.namedItem "r" (Tree.boundTree n)])]

/-- A request about a bound in range is answered with a result. -/
theorem answers_bound : (Standard.library (K := Float)).IsSound ∧
    ∃ r, (answer Standard.solver .feasibility (some (boundBody 1))).outcome = .ok r ∧
      r.status ∈ [200, 404, 422, 503] := by
  refine ⟨Standard.isSound_library, ?_⟩
  refine (answers_or_passes_on Standard.isSound_library .feasibility _).resolve_right ?_
  rintro ⟨e, he, -⟩
  have hok : (answer Standard.solver .feasibility (some (boundBody 1))).outcome.toOption.isSome =
      true := by decide +kernel
  rw [Standard.solver, he] at hok
  cases hok

/-- A request about a bound that is out of range is not answered. -/
theorem passes_on_huge_integer :
    (∃ p, Payload.read false (some (boundBody (10 ^ 400))) = .ok p) ∧
    (answer Standard.solver .feasibility (some (boundBody (10 ^ 400)))).outcome =
      .error (.overflow .integer) := by
  refine ⟨⟨_, rfl⟩, ?_⟩
  exact Reported.outcome_of_overflows (by decide +kernel)

end Service

end RuleAudit
