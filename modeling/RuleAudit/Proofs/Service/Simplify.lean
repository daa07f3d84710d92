import RuleAudit.Proofs.Query.Hinted
import RuleAudit.Proofs.Service.Opening
import RuleAudit.Proofs.Tree.Presentable

/-!
# Sending simplified rules again

The rules of an answer are items of a body, so they can be sent again. They were simplified to the
end, and simplifying what is read from them does not change them any more: the second answer is the
first one (`Service.respond_simplify_again`).
-/

namespace RuleAudit

open Outcome

/-! ### Bodies of rationals -/

mutual
/-- Rationals are finite. -/
theorem Datum.isBounded_rat : ∀ d : Datum Rat, d.isBounded = true
  | .null => rfl
  | .bool _ => rfl
  | .int _ => rfl
  | .real _ => rfl
  | .text _ => rfl
  | .list items => areBounded_rat items
  | .mapping entries => entriesBounded_rat entries

theorem Datum.areBounded_rat : ∀ ds : List (Datum Rat), areBounded ds = true
  | [] => rfl
  | d :: rest => by rw [areBounded, isBounded_rat d, areBounded_rat rest]; rfl

theorem Datum.entriesBounded_rat :
    ∀ entries : List (Datum Rat × Datum Rat), entriesBounded entries = true
  | [] => rfl
  | (_, v) :: rest => by rw [entriesBounded, isBounded_rat v, entriesBounded_rat rest]; rfl
end

namespace Service

section

variable {K : Type} [Scalar K]

/-- The items of rules that are written are read from a body. -/
theorem Payload.exists_readItems {rules : List (Rule K)} {ds : List (Datum K)}
    (h : rules.mapM Tree.ofRule = .ok ds) (path : List (Datum K)) (index : Nat) :
    ∃ items, readItems path index ds = .ok items ∧
      items.map (fun i => Tree.namedItem i.name i.expr) = ds := by
  induction rules generalizing index ds with
  | nil =>
    obtain rfl := Except.ok.inj h
    exact ⟨[], rfl, rfl⟩
  | cons r rules ih =>
    rw [List.mapM_cons] at h
    obtain ⟨d, hd, h⟩ := bind_eq_ok.mp h
    obtain ⟨rest, hrest, h⟩ := bind_eq_ok.mp h
    obtain rfl := Except.ok.inj h
    obtain ⟨tree, -, hd⟩ := bind_eq_ok.mp hd
    obtain rfl := Except.ok.inj hd
    obtain ⟨items, hitems, hmap⟩ := ih hrest (index + 1)
    refine ⟨⟨r.name, tree⟩ :: items, ?_, congrArg (_ :: ·) hmap⟩
    rw [readItems, hitems]
    rfl

/-! ### Opening and answering -/

variable {solver : Solver K} {p : Payload K} {s : RuleSet K} {o : Oracle K}

theorem opened_eq_ok : (opened solver p).outcome = .ok (s, o) ↔ ∃ settings,
    (Settings.ofMapping p.settings).outcome = .ok settings ∧ o = ⟨solver, settings⟩ ∧
      (Tree.ofItems (p.items.map fun i => Tree.namedItem i.name i.expr) true).outcome = .ok s := by
  have hopened : (opened solver p).outcome = .ok (s, o) ↔
      ((Settings.ofMapping p.settings).outcome >>= fun settings =>
        (Tree.ofItems (p.items.map fun i => Tree.namedItem i.name i.expr) true).outcome >>= fun s =>
          .ok (s, ⟨solver, settings⟩)) = .ok (s, o) := by
    have hinner : ∀ {x : Reported K (RuleSet K × Oracle K)} {so : RuleSet K × Oracle K},
        (tryCatch x fun e => throw (blame e)).outcome = .ok so ↔ x.outcome = .ok so := by
      intro x so
      rw [Reported.outcome_tryCatch]
      cases x.outcome with
      | ok so' => exact Iff.rfl
      | error e => exact ⟨(fun h => nomatch h), fun h => nomatch h⟩
    rw [opened, hinner, Reported.outcome_bind]
    exact Iff.of_eq (congrArg (· = _) (bind_congr fun _ => Reported.outcome_bind _ _))
  rw [hopened]
  constructor
  · intro h
    obtain ⟨settings, hsettings, h⟩ := bind_eq_ok.mp h
    obtain ⟨s', hs, h⟩ := bind_eq_ok.mp h
    cases h
    exact ⟨settings, hsettings, rfl, hs⟩
  · rintro ⟨settings, hsettings, rfl, hs⟩
    rw [hsettings, ok_bind, hs]
    rfl

/-- An error is not answered with a result. -/
theorem status_of_answerTo {e : Error K} {r : Response K} (h : answerTo e = .ok r) :
    r.status ≠ 200 := by
  cases e with
  | definition site f => cases h; exact (by decide : (422 : Nat) ≠ 200)
  | encoding site obstacle => cases h; exact (by decide : (422 : Nat) ≠ 200)
  | notConverged rounds last =>
    obtain ⟨rules, -, h⟩ := bind_eq_ok.mp h
    cases h
    exact (by decide : (422 : Nat) ≠ 200)
  | solver fault => cases h; exact (by decide : (503 : Nat) ≠ 200)
  | _ => cases h

theorem onRoute_simplify_error {body : Option (Datum K)} {findings : List (Finding K)}
    (h : Payload.read true body = .error findings) :
    onRoute solver .simplify body = return unfit findings := by
  simp only [onRoute, decide_true, h]

theorem onRoute_simplify_ok {body : Option (Datum K)} {p : Payload K}
    (h : Payload.read true body = .ok p) :
    onRoute solver .simplify body =
      opened solver p >>= fun so => simplified so.1 so.2 p.bindings := by
  simp only [onRoute, decide_true, h]

/-- What is answered when rules are simplified. -/
theorem answer_simplify_eq_ok {body : Option (Datum K)} {r : Response K}
    (hstatus : r.status = 200) :
    (answer solver .simplify body).outcome = .ok r ↔ ∃ p s o result rules,
      Payload.read true body = .ok p ∧ (opened solver p).outcome = .ok (s, o) ∧
      (o.simplify s (p.bindings.map fun b => (b.1.label, b.2))).outcome = .ok result ∧
      Tree.ofRules result = .ok rules ∧ r = ok [("rules", .list rules)] := by
  have hanswer : (answer solver .simplify body).outcome = .ok r ↔
      (onRoute solver .simplify body).outcome = .ok r := by
    rw [answer, Reported.outcome_tryCatch]
    cases (onRoute solver .simplify body).outcome with
    | ok r' => exact Iff.rfl
    | error e => exact ⟨fun h => absurd hstatus (status_of_answerTo h), by rintro ⟨⟩⟩
  rw [hanswer]
  cases hread : Payload.read true body with
  | error findings =>
    rw [onRoute_simplify_error hread]
    refine ⟨?_, by rintro ⟨_, _, _, _, _, ⟨⟩, _⟩⟩
    rintro ⟨⟩
    exact absurd hstatus (by decide : (422 : Nat) ≠ 200)
  | ok p =>
    rw [onRoute_simplify_ok hread, Reported.outcome_bind]
    constructor
    · intro h
      obtain ⟨⟨s, o⟩, hopened, h⟩ := bind_eq_ok.mp h
      rw [simplified, Reported.outcome_bind] at h
      obtain ⟨result, hresult, h⟩ := bind_eq_ok.mp h
      rw [Reported.outcome_bind] at h
      obtain ⟨rules, hrules, h⟩ := bind_eq_ok.mp h
      cases h
      exact ⟨p, s, o, result, rules, rfl, hopened, hresult, hrules, rfl⟩
    · rintro ⟨_, s, o, result, rules, ⟨⟩, hopened, hresult, hrules, rfl⟩
      rw [hopened, ok_bind, simplified, Reported.outcome_bind, hresult, ok_bind,
        Reported.outcome_bind, Reported.outcome_monadLift, hrules]
      rfl

end

section Again

variable {solver : Solver Rat} {body : Datum Rat} {p : Payload Rat}

theorem respond_simplify (solver : Solver Rat) (body : Datum Rat) :
    respond solver "POST" "/api/simplify" (some body) = answer solver .simplify (some body) := by
  have hroute : Route.ofTarget? "/api/simplify" = some .simplify := by decide +kernel
  have hmethod : "POST".toUpper = Route.simplify.method := by decide +kernel
  have hbounded : ¬ ((some body).map Datum.isBounded).getD true = false := by
    rw [Option.map_some, Option.getD_some, Datum.isBounded_rat]
    decide
  rw [respond, if_neg hbounded, hroute]
  exact if_pos hmethod

/-- **Simplifying is idempotent through the service.** If a body without bindings, whose variables
have no white space around them, is answered with a result, then the result is a list of rules, and
any body with these rules, the same settings and no bindings is answered in the same way. -/
theorem respond_simplify_again (hsolver : ∀ settings, solver.Exact settings)
    (hread : Payload.read true (some body) = .ok p) (hbindings : p.bindings = [])
    (hnames : ∀ i ∈ p.items, ∀ u ∈ Tree.uses i.expr, Text.strip u.1 = u.1)
    {r : Response Rat}
    (hanswer : (respond solver "POST" "/api/simplify" (some body)).outcome = .ok r)
    (hstatus : r.status = 200) :
    ∃ rules, r = ok [("rules", .list rules)] ∧
      ∀ entries, Datum.field? "rules" entries = some (.list rules) →
        Payload.readMapping "settings" entries = .ok p.settings →
        Payload.readMapping "bindings" entries = .ok [] →
        (respond solver "POST" "/api/simplify" (some (.mapping entries))).outcome = .ok r := by
  rw [respond_simplify, answer_simplify_eq_ok hstatus] at hanswer
  obtain ⟨_, s, o, t, rules, hp, hopened, hsimplify, hwrite, rfl⟩ := hanswer
  obtain rfl := Except.ok.inj (hread.symm.trans hp)
  obtain ⟨settings, hsettings, rfl, hs⟩ := opened_eq_ok.mp hopened
  rw [hbindings] at hsimplify
  have htrees : ∀ d ∈ p.items.map (fun i => Tree.namedItem i.name i.expr), ∀ name tree,
      Tree.IsItem d name tree → ∀ u ∈ Tree.uses tree, Text.strip u.1 = u.1 := by
    refine List.forall_mem_map.mpr fun i hi name tree hitem => ?_
    obtain ⟨⟨entries, hentries, -, htree⟩, -⟩ := hitem
    obtain rfl := Datum.mapping.inj hentries
    obtain rfl : i.expr = tree := Option.some.inj htree
    exact hnames i hi
  obtain ⟨L, hpresentable⟩ := Tree.presentable_of_ofItems hs htrees
  obtain ⟨_, u, hrules, hreread, hstable, hagain⟩ :=
    Oracle.exists_simplify_reread (hsolver settings) hpresentable hsimplify
  obtain rfl := Except.ok.inj (hwrite.symm.trans hrules)
  refine ⟨rules, rfl, fun entries hfield hsame hnone => ?_⟩
  -- the second body is opened to the rules that are read from the answer
  obtain ⟨items, hitems, hmap⟩ :=
    Payload.exists_readItems hwrite [.text "body", .text "rules"] 0
  have hbody : Payload.read true (some (.mapping entries)) = .ok ⟨items, p.settings, []⟩ := by
    rw [Payload.read, Payload.readRules, hfield, hsame, hnone]
    dsimp only
    rw [hitems]
    rfl
  rw [respond_simplify, answer_simplify_eq_ok rfl]
  refine ⟨_, u, ⟨solver, settings⟩, u, rules, hbody, ?_, hstable, hagain, rfl⟩
  refine opened_eq_ok.mpr ⟨settings, hsettings, rfl, ?_⟩
  rw [hmap, hreread]

/-- A body with a rule between spaces, a weaker bound on the same variable, and a rule that fixes
another variable. -/
def pinnedBody : Datum Rat :=
  .record [("rules", .list [
    Tree.namedItem " low " (.record [(">=", .list [.text "x", .int 2])]),
    Tree.namedItem "loose" (.record [(">=", .list [.text "x", .int 1])]),
    Tree.namedItem "three" (.record [("and", .list [.record [(">=", .list [.text "y", .int 3])],
      .record [("<=", .list [.text "y", .int 3])]])])])]

/-- How many rules an answer lists. -/
def Response.ruleCount (r : Response Rat) : Nat :=
  match r.body with
  | .mapping [(_, .list rules)] => rules.length
  | _ => 0

/-- The bound stays under its name without the spaces, and a pin follows; the two rules are sent
again and come back as they are. -/
theorem respond_simplify_again_pinned :
    let solver := Solver.hinted [[("num[x]", 5), ("num[y]", 3)], [("num[x]", 3), ("num[y]", 3)],
      [("num[x]", 3 / 2), ("num[y]", 3)],
      [("num[x]", 5), ("num[y]", 0), ("sel[1:~.const_y#0]", 1), ("sel[1:~.const_y#1]", 0)]]
    (∀ settings, solver.Exact settings) ∧ ∃ p r rules,
      Payload.read true (some pinnedBody) = .ok p ∧ p.bindings = [] ∧
      (∀ i ∈ p.items, ∀ u ∈ Tree.uses i.expr, Text.strip u.1 = u.1) ∧
      (respond solver "POST" "/api/simplify" (some pinnedBody)).outcome = .ok r ∧
      r.status = 200 ∧ r = ok [("rules", .list rules)] ∧ rules.length = 2 ∧
      (respond solver "POST" "/api/simplify"
        (some (.record [("rules", .list rules)]))).outcome = .ok r := by
  intro solver
  have hexact : ∀ settings, solver.Exact settings := Solver.hinted_exact _
  have hsome : (respond solver "POST" "/api/simplify" (some pinnedBody)).outcome.toOption.any
      (fun r => r.status == 200 && r.ruleCount == 2) = true := by
    decide +kernel
  obtain ⟨r, hr, hall⟩ := exists_of_any_toOption hsome
  rw [Bool.and_eq_true, beq_iff_eq] at hall
  obtain ⟨hstatus, hlength⟩ := hall
  obtain ⟨p, hp⟩ : ∃ p, Payload.read true (some pinnedBody) = .ok p := ⟨_, rfl⟩
  have hnames : ∀ i ∈ p.items, ∀ u ∈ Tree.uses i.expr, Text.strip u.1 = u.1 := by
    obtain rfl := Except.ok.inj hp
    decide +kernel
  have hbindings : p.bindings = [] := by
    obtain rfl := Except.ok.inj hp
    rfl
  have hsettings : p.settings = [] := by
    obtain rfl := Except.ok.inj hp
    rfl
  obtain ⟨rules, rfl, hagain⟩ :=
    respond_simplify_again hexact hp hbindings hnames hr hstatus
  exact ⟨hexact, p, _, rules, hp, hbindings, hnames, hr, hstatus, rfl, eq_of_beq hlength,
    hagain _ rfl (hsettings ▸ rfl) rfl⟩

end Again

end Service

end RuleAudit
