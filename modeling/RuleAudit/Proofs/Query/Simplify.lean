import RuleAudit.Proofs.Query.Rounds
import RuleAudit.Proofs.Rule.Bound

/-!
# Simplification comes to an end

Rounds are repeated until one changes nothing. How many rounds can change something is bounded by
what the set costs and, when the names of the decision variables are different, by the number of
its open variables (`Oracle.simplify_converges`). Simplifying gives up after as many rounds as there
are rules; a set can have more open variables than that, and need more rounds.
-/

namespace RuleAudit

/-- A computation gave up because the rounds did not come to an end. -/
def GivesUp {α : Type} (outcome : Except (Error Rat) α) : Prop :=
  ∃ rounds last, outcome = .error (.notConverged rounds last)

theorem Error.IsClash.not_givesUp {α : Type} {e : Error Rat} (h : e.IsClash) :
    ¬ GivesUp (.error e : Except (Error Rat) α) := by
  obtain ⟨name, rfl⟩ := h
  rintro ⟨rounds, last, heq⟩
  cases heq

namespace Oracle

variable {o : Oracle Rat} {L : Lexicon} {s : RuleSet Rat} {limit n : Nat}

theorem simplifyRounds_succ : (o.simplifyRounds limit (n + 1) s).outcome =
    (o.simplifyRound s).outcome >>= fun t =>
      if t == s then .ok s else (o.simplifyRounds limit n t).outcome := by
  rw [simplifyRounds, Reported.outcome_bind]
  refine congrArg ((o.simplifyRound s).outcome >>= ·) (funext fun t => ?_)
  split <;> rfl

/-- A run goes on after a round, unless the round changed nothing. -/
private theorem not_givesUp_succ {t : RuleSet Rat} (ht : (o.simplifyRound s).outcome = .ok t)
    (h : t ≠ s → ¬ GivesUp (o.simplifyRounds limit n t).outcome) :
    ¬ GivesUp (o.simplifyRounds limit (n + 1) s).outcome := by
  rw [simplifyRounds_succ, ht, Outcome.ok_bind]
  by_cases heq : t = s
  · rw [heq, beq_self_eq_true, if_pos rfl]
    rintro ⟨rounds, last, h⟩
    cases h
  · split
    · rintro ⟨rounds, last, h⟩
      cases h
    · exact h heq

section Runs

variable (hsolver : o.solver.Exact o.settings)

include hsolver

/-- As many rounds as the set costs are enough. -/
theorem not_givesUp_of_load_lt (h : ∀ r ∈ s.rules, r.Fits L) (hn : load s.rules < n) :
    ¬ GivesUp (o.simplifyRounds limit n s).outcome := by
  induction n generalizing s with
  | zero => omega
  | succ n ih =>
    obtain ⟨e, he, hclash⟩ | ⟨t, ht, hfits, hload, -, -⟩ := simplifyRound_cases hsolver h
    · rw [simplifyRounds_succ, he]
      exact hclash.not_givesUp
    · refine not_givesUp_succ ht fun hne => ih hfits ?_
      have hlt := hload.resolve_left hne
      omega

/-- For a settled set, as many rounds as it has open variables are enough. -/
theorem not_givesUp_of_settled (hL : L.Apart) (h : ∀ r ∈ s.rules, r.Fits L)
    (hsettled : Settled o.settings s.rules) (hn : (openIn s.rules).toFinset.card < n) :
    ¬ GivesUp (o.simplifyRounds limit n s).outcome := by
  induction n generalizing s with
  | zero => omega
  | succ n ih =>
    obtain ⟨e, he, hclash⟩ | ⟨t, ht, hfits, -, -, hsettles⟩ := simplifyRound_cases hsolver h
    · rw [simplifyRounds_succ, he]
      exact hclash.not_givesUp
    · obtain ⟨hsettled', hclosed⟩ := hsettles hL
      refine not_givesUp_succ ht fun hne => ih hfits hsettled' ?_
      have hlt := (hclosed hsettled).resolve_left hne
      omega

/-- For any set, one more round is enough: it is settled after the first one. -/
theorem not_givesUp_of_card_lt (hL : L.Apart) (h : ∀ r ∈ s.rules, r.Fits L)
    (hn : (openIn s.rules).toFinset.card + 1 < n) :
    ¬ GivesUp (o.simplifyRounds limit n s).outcome := by
  obtain ⟨n, rfl⟩ : ∃ m, n = m + 1 := ⟨n - 1, by omega⟩
  obtain ⟨e, he, hclash⟩ | ⟨t, ht, hfits, -, hcard, hsettles⟩ := simplifyRound_cases hsolver h
  · rw [simplifyRounds_succ, he]
    exact hclash.not_givesUp
  · -- the number of open variables has not grown in the round that settled the set
    refine not_givesUp_succ ht fun _ =>
      not_givesUp_of_settled hsolver hL hfits (hsettles hL).1 ?_
    omega

end Runs

/-- A feasible set is simplified in rounds, and an infeasible one is returned. -/
theorem simplify_outcome {bindings : Assignment Rat} {current : RuleSet Rat} {feasible : Bool}
    (hcurrent : (if bindings.isEmpty then .ok s else s.substitute bindings true) = .ok current)
    (hfeasible : o.isFeasible current = .ok feasible) : (o.simplify s bindings).outcome =
      if feasible then
        (o.simplifyRounds (max 1 current.size) (max 1 current.size + 1) current).outcome
      else .ok current := by
  have hrounds : (do
      if !(← o.isFeasible current) then
        Reported.warn (.infeasibleSet .simplification)
        return current
      let limit := max 1 current.size
      o.simplifyRounds limit (limit + 1) current : Reported Rat (RuleSet Rat)).outcome =
      if feasible then
        (o.simplifyRounds (max 1 current.size) (max 1 current.size + 1) current).outcome
      else .ok current := by
    rw [Reported.outcome_bind, Reported.outcome_monadLift, hfeasible, Outcome.ok_bind]
    cases feasible <;> rfl
  rw [← hrounds, simplify]
  split at hcurrent
  · next hempty =>
    rw [if_pos hempty, Reported.outcome_bind, Reported.outcome_pure, hcurrent, Outcome.ok_bind]
  · next hbindings =>
    rw [if_neg hbindings, Reported.outcome_bind, Reported.outcome_lift, hcurrent, Outcome.ok_bind]

/-- **Simplification comes to an end.** For an exact solver, the number of rounds that change a set
is at most what the set costs. When its decision variables have different names, it is at most one
more than the number of variables that some rule does not merely pin; so simplifying gives up only
on sets with at least as many of these variables as rules. -/
theorem simplify_converges (o : Oracle Rat) (s : RuleSet Rat) (bindings : Assignment Rat)
    (current : RuleSet Rat) (hrules : KindConsistent s.rules)
    (hsolver : o.solver.Exact o.settings)
    (hcurrent : (if bindings.isEmpty then .ok s else s.substitute bindings true) = .ok current) :
    (∀ limit n, load current.rules < n →
      ¬ GivesUp (o.simplifyRounds limit n current).outcome) ∧
    ((∀ p, Program.ofRules current.rules o.settings = .ok p → (p.vars.map (·.name)).Nodup) →
      (∀ limit n, (openIn current.rules).toFinset.card + 1 < n →
        ¬ GivesUp (o.simplifyRounds limit n current).outcome) ∧
      ((openIn current.rules).toFinset.card < max 1 current.size →
        ¬ GivesUp (o.simplify s bindings).outcome)) := by
  have hcurrentRules : KindConsistent current.rules := by
    split at hcurrent
    · rwa [← Except.ok.inj hcurrent]
    · exact RuleSet.kindConsistent_substitute hrules hcurrent
  constructor
  · obtain ⟨L, hfits, -⟩ := hcurrentRules.exists_lexicon
    exact fun limit n hn => not_givesUp_of_load_lt hsolver hfits hn
  · intro hnames
    obtain ⟨L, hL, hfits, -⟩ := hcurrentRules.exists_apart hnames
    have hrounds : ∀ limit n, (openIn current.rules).toFinset.card + 1 < n →
        ¬ GivesUp (o.simplifyRounds limit n current).outcome :=
      fun limit n hn => not_givesUp_of_card_lt hsolver hL hfits hn
    refine ⟨hrounds, fun hcard hgivesUp => ?_⟩
    rw [simplify_outcome hcurrent (isFeasible_eq hsolver hfits)] at hgivesUp
    split at hgivesUp
    · exact hrounds _ _ (by omega) hgivesUp
    · obtain ⟨rounds, last, heq⟩ := hgivesUp
      cases heq

/-- A lower bound on a sum, with a value for one of the two variables. -/
theorem simplify_converges_sum :
    let low : Rule Rat := ⟨"low", .atom (.linear (.canonical [(⟨"x", by decide⟩, 1),
      (⟨"y", by decide⟩, 1)] .ge 1)), none, by decide, by simp, none⟩
    let s : RuleSet Rat := ⟨[low], by decide⟩
    let bindings : Assignment Rat := [("y", .int 2)]
    let solver := Solver.hinted []
    KindConsistent s.rules ∧ ∃ settings current, Settings.default = .ok settings ∧
      s.substitute bindings true = .ok current ∧ current.names = ["low", ".const_y"] ∧
      (∀ limit n, load current.rules < n →
        ¬ GivesUp (simplifyRounds ⟨solver, settings⟩ limit n current).outcome) ∧
      (∃ p, Program.ofRules current.rules settings = .ok p ∧ (p.vars.map (·.name)).Nodup) ∧
      (openIn current.rules).toFinset.card < max 1 current.size ∧
      ¬ GivesUp (simplify ⟨solver, settings⟩ s bindings).outcome := by
  intro low s bindings solver
  have hkinds : KindConsistent s.rules := by decide +kernel
  have hsome : (Settings.default (K := Rat)).toOption.any (fun settings =>
      (s.substitute bindings true).toOption.any fun current =>
        decide (current.names = ["low", ".const_y"]) &&
        (Program.ofRules current.rules settings).toOption.any (fun p =>
          decide (p.vars.map (·.name)).Nodup) &&
        decide ((openIn current.rules).toFinset.card < max 1 current.size)) = true := by
    decide +kernel
  obtain ⟨settings, hsettings, hall⟩ := Outcome.exists_of_any_toOption hsome
  obtain ⟨current, hcurrent, hall⟩ := Outcome.exists_of_any_toOption hall
  rw [Bool.and_eq_true, Bool.and_eq_true, decide_eq_true_eq, decide_eq_true_eq] at hall
  obtain ⟨⟨hnames, hvars⟩, hcard⟩ := hall
  obtain ⟨p, hp, hnodup⟩ := Outcome.exists_of_any_toOption hvars
  obtain ⟨hload, hopen⟩ := simplify_converges ⟨solver, settings⟩ s bindings current hkinds
    (Solver.hinted_exact [] settings) hcurrent
  refine ⟨hkinds, settings, current, hsettings, hcurrent, hnames, hload,
    ⟨p, hp, of_decide_eq_true hnodup⟩, hcard, (hopen fun q hq => ?_).2 hcard⟩
  obtain rfl := Except.ok.inj (hp.symm.trans hq)
  exact of_decide_eq_true hnodup

/-- Whether rules ran out of rounds. -/
def isNotConverged {α : Type} : Except (Error Rat) α → Bool
  | .error (.notConverged _ _) => true
  | _ => false

theorem givesUp_of_isNotConverged {α : Type} {x : Except (Error Rat) α}
    (h : isNotConverged x = true) : GivesUp x := by
  unfold isNotConverged at h
  split at h
  · exact ⟨_, _, rfl⟩
  · cases h

/-- One rule for two variables: the first round fixes the first one in a range that is narrower than
`epsilon`, and only then is the range of the second one narrow, too. -/
theorem simplify_givesUp :
    let x : VarName := ⟨"x", by decide⟩
    let y : VarName := ⟨"y", by decide⟩
    let slope : Rule Rat := ⟨"slope", .and [.atom (.linear (.canonical [(x, 1)] .ge 0)),
      .atom (.linear (.canonical [(x, 1)] .le (1 / 2000))),
      .atom (.linear (.canonical [(x, -10), (y, 1)] .ge 0)),
      .atom (.linear (.canonical [(x, -10), (y, 1)] .le (1 / 2000)))], none,
      by decide +kernel, by simp, none⟩
    let s : RuleSet Rat := ⟨[slope], by decide⟩
    let solver := Solver.hinted [[("num[x]", 1 / 2000), ("num[y]", 1 / 200)],
      [("num[x]", 1 / 10000), ("num[y]", 1 / 1000)],
      [("num[x]", 1 / 2000), ("num[y]", 0), ("sel[1:~slope#0]", 1), ("sel[1:~slope#1]", 0)],
      [("num[x]", -1), ("num[y]", 1 / 200), ("sel[1:~.const_x#0]", 1), ("sel[1:~.const_x#1]", 0)],
      [("num[x]", 1 / 2000), ("num[y]", 0), ("sel[1:~.const_y#0]", 1), ("sel[1:~.const_y#1]", 0)]]
    KindConsistent s.rules ∧ ∃ settings, Settings.default = .ok settings ∧
      solver.Exact settings ∧ GivesUp (simplify ⟨solver, settings⟩ s []).outcome := by
  intro x y slope s solver
  have hsome : (Settings.default (K := Rat)).toOption.any (fun settings =>
      isNotConverged (simplify ⟨solver, settings⟩ s []).outcome) = true := by
    decide +kernel
  obtain ⟨settings, hsettings, hgivesUp⟩ := Outcome.exists_of_any_toOption hsome
  exact ⟨by decide +kernel, settings, hsettings, Solver.hinted_exact _ settings,
    givesUp_of_isNotConverged hgivesUp⟩

end Oracle

end RuleAudit
