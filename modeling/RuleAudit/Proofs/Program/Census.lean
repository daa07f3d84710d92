import RuleAudit.Proofs.Program.Closed
import RuleAudit.Proofs.Rule

/-!
# Two censuses of variables

The variables of rules are counted for a set of rules, and counted again for their program. Both
counts go through the same rules and fail at the same one, in words of their own
(`Usage.parallel_ofRules`). The tables are the same, and rules that have them have a program
(`Program.exists_parts`): the clauses of normal forms are not constant, so they have rows, and
all that rows are made of is in the tables.
-/

namespace RuleAudit

/-! ### Computations side by side that may fail -/

namespace Outcome

variable {ε α β γ δ : Type} {E : ε → ε → Prop} {R : α → β → Prop} {S : γ → δ → Prop}

/-- Two computations end alike: with related results, or with related errors. -/
inductive Parallel (E : ε → ε → Prop) (R : α → β → Prop) : Except ε α → Except ε β → Prop
  | ok {a : α} {b : β} (h : R a b) : Parallel E R (.ok a) (.ok b)
  | error {e e' : ε} (h : E e e') : Parallel E R (.error e) (.error e')

namespace Parallel

variable {x : Except ε α} {y : Except ε β}

theorem bind {f : α → Except ε γ} {g : β → Except ε δ} (h : Parallel E R x y)
    (hf : ∀ a b, R a b → Parallel E S (f a) (g b)) : Parallel E S (x >>= f) (y >>= g) := by
  cases h with
  | ok h => exact hf _ _ h
  | error h => exact .error h

/-- The second computation goes on, and does not fail any more. -/
theorem bind_right {R' : α → δ → Prop} {g : β → Except ε δ} (h : Parallel E R x y)
    (hg : ∀ a b, R a b → ∃ d, g b = .ok d ∧ R' a d) : Parallel E R' x (y >>= g) := by
  cases h with
  | @ok a b h =>
    obtain ⟨d, hd, hrelated⟩ := hg a b h
    rw [ok_bind, hd]
    exact .ok hrelated
  | error h => exact .error h

/-- The same first step on both sides. -/
theorem bind_self {f : α → Except ε γ} {g : α → Except ε δ} (hE : ∀ e, E e e)
    (hf : ∀ a, x = .ok a → Parallel E S (f a) (g a)) : Parallel E S (x >>= f) (x >>= g) := by
  cases x with
  | ok a => exact hf a rfl
  | error e => exact .error (hE e)

theorem foldlM {f : α → γ → Except ε α} {g : β → γ → Except ε β} {a : α} {b : β} (l : List γ)
    (h : R a b) (hstep : ∀ a b c, R a b → Parallel E R (f a c) (g b c)) :
    Parallel E R (l.foldlM f a) (l.foldlM g b) := by
  induction l generalizing a b with
  | nil => exact .ok h
  | cons c l ih => exact (hstep a b c h).bind fun a b hab => ih hab

theorem exists_of_ok {a : α} (h : Parallel E R x y) (hx : x = .ok a) : ∃ b, y = .ok b ∧ R a b := by
  cases h with
  | ok h =>
    obtain rfl := Except.ok.inj hx
    exact ⟨_, rfl, h⟩
  | error h => cases hx

/-- Errors of a kind that related errors have together are met on both sides or on neither. -/
theorem exists_error_iff {P : ε → Prop} (h : Parallel E R x y)
    (hP : ∀ e e', E e e' → (P e ↔ P e')) :
    (∃ e, y = .error e ∧ P e) ↔ ∃ e, x = .error e ∧ P e := by
  cases h with
  | ok h =>
    constructor <;> exact fun ⟨_, he, _⟩ => nomatch he
  | @error e e' h =>
    constructor
    · rintro ⟨_, ⟨⟩, he⟩
      exact ⟨e, rfl, (hP e e' h).mpr he⟩
    · rintro ⟨_, ⟨⟩, he⟩
      exact ⟨e', rfl, (hP e e' h).mp he⟩

end Parallel

end Outcome

open Outcome

variable {K : Type} [Scalar K]

/-! ### Errors about kinds -/

/-- The rule uses a variable with two kinds, or with another kind than other rules. -/
def Error.IsKindConflict (rule : Datum K) : Error K → Prop
  | .definition site (.kindClash ..) => site.rule = rule
  | _ => False

/-- The same error, where a clash with earlier rules may be one with other rules. -/
inductive Error.Rewords : Error K → Error K → Prop
  | same (e : Error K) : Rewords e e
  | clash (site : Site K) (name : String) (now earlier : VarKind) :
    Rewords (.definition site (.kindClash .earlierRules name now earlier))
      (.definition site (.kindClash .otherRules name now earlier))

/-- Other words keep the rule that is named. -/
theorem Error.Rewords.isKindConflict_iff {e e' : Error K} (h : e.Rewords e') (rule : Datum K) :
    e.IsKindConflict rule ↔ e'.IsKindConflict rule := by
  cases h <;> exact Iff.rfl

/-- Merging the kinds of a rule goes alike in both counts. -/
theorem parallel_mergeKinds (rule : Datum K) (table entries : List (String × VarKind)) :
    Parallel Error.Rewords (· = ·) (mergeKinds .earlierRules rule table entries)
      (mergeKinds .otherRules rule table entries) := by
  induction entries generalizing table with
  | nil => exact .ok rfl
  | cons entry entries ih =>
    rw [mergeKinds, mergeKinds]
    split
    · exact ih _
    · split
      · exact ih _
      · exact .error (.clash _ _ _ _)

theorem failsOnly_mergeKinds_conflict (clash : Clash) (rule : Datum K)
    (table entries : List (String × VarKind)) :
    FailsOnly (Error.IsKindConflict rule) (mergeKinds clash rule table entries) := by
  induction entries generalizing table with
  | nil => exact failsOnly_ok _
  | cons entry entries ih =>
    rw [mergeKinds]
    split
    · exact ih _
    · exact failsOnly_ite (fun _ => ih _) fun _ => failsOnly_error rfl

theorem Census.failsOnly_register_conflict {c : Clause K} (hc : c.IsProper) (rule : Datum K)
    (census : Census) : FailsOnly (Error.IsKindConflict rule) (census.register rule c) := by
  rw [register_eq hc]
  refine (failsOnly_foldlM fun u _ table => ?_).map _
  rw [registerVar]
  split
  · exact failsOnly_ok _
  · exact failsOnly_ite (fun _ => failsOnly_ok _) fun _ => failsOnly_error rfl

/-- Rules with normal forms of clauses have a table of their variables, unless a rule uses a
variable with another kind than before. -/
theorem RuleSet.failsOnly_kinds_conflict {s : RuleSet K}
    (h : ∀ r ∈ s.rules, ∃ d, r.dnf = .ok d ∧ d.Within Clause.IsProper) :
    FailsOnly (fun e => ∃ r ∈ s.rules, e.IsKindConflict (.text r.name)) s.kinds := by
  refine failsOnly_foldlM fun r hr table => ?_
  obtain ⟨d, hd, hproper⟩ := h r hr
  have hkinds : FailsOnly (Error.IsKindConflict (.text r.name)) r.kinds := by
    rw [Rule.kinds, hd, ok_bind]
    exact (failsOnly_foldlM fun c hc census => census.failsOnly_register_conflict
      (Dnf.within_iff_flatten.mp hproper c hc) _).map _
  exact (hkinds.bind fun entries _ => failsOnly_mergeKinds_conflict _ _ _ _).mono
    fun e he => ⟨r, hr, he⟩

/-! ### The same tables -/

namespace Usage

variable {s : RuleSet K} {u : Usage}

/-- The variables of a set and of its program are counted with the same kinds, or with errors that
differ in their words only. -/
theorem parallel_ofRules (s : RuleSet K) :
    Parallel Error.Rewords (fun table u => u.kinds = table) s.kinds (ofRules s.rules) := by
  refine Parallel.foldlM s.rules rfl fun table u r hu => ?_
  subst hu
  refine Parallel.bind_self .same fun entries hentries => ?_
  obtain ⟨d, hd, -⟩ := bind_eq_ok.mp hentries
  refine (parallel_mergeKinds (.text r.name) u.kinds entries).bind_right fun _ merged h => ?_
  exact ⟨⟨merged, d.flatten.foldl RuleSet.addLabels u.labels⟩, by rw [hd]; rfl, h.symm⟩

/-- The labels that a set has are those of its program. -/
theorem labels_eq_of_ofRules (h : ofRules s.rules = .ok u) : s.labels = .ok u.labels := by
  refine foldlM_induction (fun seen (u : Usage) => seen.foldlM (fun labels r => do
    return (← Rule.dnf r).flatten.foldl RuleSet.addLabels labels) [] = .ok u.labels) h rfl
      fun seen r before after hseen hafter => ?_
  obtain ⟨entries, -, hafter⟩ := bind_eq_ok.mp hafter
  obtain ⟨merged, -, hafter⟩ := bind_eq_ok.mp hafter
  obtain ⟨d, hd, hafter⟩ := bind_eq_ok.mp hafter
  obtain rfl := Except.ok.inj hafter
  rw [List.foldlM_append, hseen, ok_bind, List.foldlM_cons, hd]
  rfl

/-- A categorical variable in use has labels, for a clause without any would be constant. -/
theorem exists_get?_labels {rules : List (Rule K)} {n : String} (h : ofRules rules = .ok u)
    (hn : n ∈ u.ofKind .categorical) : ∃ labels, Assoc.get? n u.labels = some labels := by
  obtain ⟨hcovers, hnormal⟩ := covers_ofRules h
  obtain ⟨c, hc, huse⟩ := List.mem_flatMap.mp (hcovers.mem_ofKind.mp hn)
  obtain ⟨r, hr, hcr⟩ := List.mem_flatMap.mp hc
  cases c with
  | linear c =>
    obtain ⟨_, -, heq⟩ := List.mem_map.mp huse
    cases heq
  | membership c =>
    obtain ⟨d, hd, -⟩ := hnormal r hr
    rw [Rule.clauses_eq hd] at hcr
    obtain ⟨term, hterm, hmem⟩ := List.mem_flatten.mp hcr
    have hopen := (Rule.isReduced hd).constant?_eq_none hterm hmem
    have hne : c.labels ≠ [] := fun hnil => by
      rw [Clause.constant?, hnil] at hopen
      cases hopen
    obtain ⟨l, hl⟩ := List.exists_mem_of_ne_nil _ hne
    obtain ⟨rfl, -⟩ := Prod.mk.inj (List.mem_singleton.mp huse)
    have hlabel := (hcovers.labels.mem_iff c.subject l).mpr ⟨_, hc, rfl, hl⟩
    cases hget : Assoc.get? c.subject u.labels with
    | some labels => exact ⟨labels, rfl⟩
    | none =>
      rw [labelsOf, hget] at hlabel
      cases hlabel
  | foreign d => cases huse

end Usage

/-! ### A program for every table -/

/-- Rules that have a table of their variables have a program. -/
theorem Program.exists_parts {u : Usage} {rules : List (Rule K)}
    (h : Usage.ofRules rules = .ok u) (settings : Settings K) :
    ∃ parts, ofRules rules settings = .ok (assemble (u.vocabulary settings) parts) := by
  obtain ⟨hcovers, hnormal⟩ := Usage.covers_ofRules h
  have hdnf : ∀ r ∈ rules, FailsOnly (fun _ => False) r.dnf := by
    intro r hr
    obtain ⟨d, hd, -⟩ := hnormal r hr
    rw [hd]
    exact failsOnly_ok d
  have hrules : ∀ r ∈ rules, ∀ d, r.dnf = .ok d → d.Within (Clause.RowsEnd (fun _ => False)
      (u.vocabulary settings) settings r.name) := by
    intro r hr d hd term hterm c hc
    obtain ⟨d', hd', hproper⟩ := hnormal r hr
    obtain rfl := Except.ok.inj (hd.symm.trans hd')
    exact c.rowsEnd_of_open hcovers settings (Rule.within_clauses hr hd term hterm c hc) r.name _
      (hproper term hterm c hc) ((Rule.isReduced hd).constant?_eq_none hterm hc)
  have hends := ends_encodings hdnf hrules 0
  cases hparts : encodings (u.vocabulary settings) settings 0 rules with
  | ok parts => exact ⟨parts, ofRules_eq_ok.mpr ⟨u, parts, h, hparts, rfl⟩⟩
  | error e => exact (hends.failsOnly e hparts).elim

/-- Rules have no program only because their variables cannot be counted. -/
theorem Program.ofRules_eq_error {rules : List (Rule K)} {settings : Settings K} {e : Error K} :
    ofRules rules settings = .error e ↔ Usage.ofRules rules = .error e := by
  cases h : Usage.ofRules rules with
  | ok u =>
    obtain ⟨parts, hprogram⟩ := exists_parts h settings
    rw [hprogram]
    simp
  | error e' =>
    rw [ofRules, h, error_bind, Except.error.injEq, Except.error.injEq]

end RuleAudit
