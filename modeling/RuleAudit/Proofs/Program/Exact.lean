import RuleAudit.Proofs.Program.Names
import RuleAudit.Proofs.Program.Points
import RuleAudit.Proofs.Rule

/-!
# The encoding is exact

A valuation is tight for a rule when some term of the rule's normal form is true with a margin of
`epsilon` on its strict clauses. The feasible points of a program are the points that read as a
valuation in the box which is tight for every rule, and every such valuation is read off some
feasible point, as long as no two decision variables have one name (`Program.decode_of_feasible`,
`Program.exists_feasible`).

The argument goes by what variables and rows express (`Expresses`): at a point that belongs to a
valuation they only hold when it is tight, and for a tight valuation they can be given values with
which they hold. This is shown for each shape of normal form, and kept when encodings are put
together.
-/

namespace RuleAudit

/-- With a margin on strict clauses, the valuation satisfies a term of the rule's normal form. -/
def Rule.TightAt (r : Rule Rat) (settings : Settings Rat) (v : Valuation) : Prop :=
  ∃ d, r.dnf = .ok d ∧ d.eval (.margin settings.epsilon.value) v = true

theorem Rule.tightAt_iff {r : Rule Rat} {d : Dnf Rat} {settings : Settings Rat} {v : Valuation}
    (h : r.dnf = .ok d) :
    r.TightAt settings v ↔ d.eval (.margin settings.epsilon.value) v = true := by
  constructor
  · rintro ⟨d', hd', htrue⟩
    obtain rfl := Except.ok.inj (hd'.symm.trans h)
    exact htrue
  · exact fun htrue => ⟨d, h, htrue⟩

/-- Decision variables with rows on them say something about valuations in the box. -/
structure Expresses (u : Usage) (settings : Settings Rat) (vars : List (DecisionVar Rat))
    (rows : List (Row Rat)) (truth : Valuation → Prop) : Prop where
  sound : ∀ x v, Reads u x v → v.InBox settings (u.ofKind .numeric) →
    (∀ d ∈ vars, d.Admits (x d.name)) → (∀ row ∈ rows, row.Holds x) → truth v
  complete : ∀ v, v.InBox settings (u.ofKind .numeric) → truth v →
    ∃ values : List (String × Rat), values.map (·.1) = vars.map (·.name) ∧
      ∀ x, Reads u x v → (∀ e ∈ values, x e.1 = e.2) →
        (∀ d ∈ vars, d.Admits (x d.name)) ∧ ∀ row ∈ rows, row.Holds x

namespace Expresses

variable {u : Usage} {settings : Settings Rat} {vars vars' : List (DecisionVar Rat)}
  {rows rows' : List (Row Rat)} {truth truth' : Valuation → Prop}

theorem nothing : Expresses u settings [] [] fun _ => True :=
  ⟨fun _ _ _ _ _ _ => trivial, fun _ _ _ => ⟨[], rfl, fun _ _ _ => by simp⟩⟩

theorem congr (h : Expresses u settings vars rows truth) (ht : ∀ v, truth v ↔ truth' v) :
    Expresses u settings vars rows truth' :=
  ⟨fun x v hx hbox hvars hrows => (ht v).mp (h.sound x v hx hbox hvars hrows),
    fun v hbox hv => h.complete v hbox ((ht v).mpr hv)⟩

/-- Put together, variables and rows say both things. -/
theorem append (h : Expresses u settings vars rows truth)
    (h' : Expresses u settings vars' rows' truth') :
    Expresses u settings (vars ++ vars') (rows ++ rows') fun v => truth v ∧ truth' v := by
  constructor
  · intro x v hx hbox hvars hrows
    obtain ⟨hv, hv'⟩ := List.forall_mem_append.mp hvars
    obtain ⟨hr, hr'⟩ := List.forall_mem_append.mp hrows
    exact ⟨h.sound x v hx hbox hv hr, h'.sound x v hx hbox hv' hr'⟩
  · rintro v hbox ⟨ht, ht'⟩
    obtain ⟨values, hnames, hvalues⟩ := h.complete v hbox ht
    obtain ⟨values', hnames', hvalues'⟩ := h'.complete v hbox ht'
    refine ⟨values ++ values', by rw [List.map_append, List.map_append, hnames, hnames'], ?_⟩
    intro x hx hall
    obtain ⟨hall, hall'⟩ := List.forall_mem_append.mp hall
    obtain ⟨hv, hr⟩ := hvalues x hx hall
    obtain ⟨hv', hr'⟩ := hvalues' x hx hall'
    exact ⟨List.forall_mem_append.mpr ⟨hv, hv'⟩, List.forall_mem_append.mpr ⟨hr, hr'⟩⟩

/-- A marker that must be one and cannot be. -/
theorem never (marker label : String) :
    Expresses u settings [⟨marker, .binary, 0, 0⟩] [⟨[(marker, 1)], .ge, 1, label, none⟩]
      fun _ => False := by
  refine ⟨fun x v _ _ hvars hrows => ?_, fun v _ hv => hv.elim⟩
  obtain ⟨-, hupper, -⟩ := hvars _ List.mem_cons_self
  have hrow := hrows _ List.mem_cons_self
  rw [Row.holds_plain, List.map_singleton, List.sum_singleton, one_mul] at hrow
  exact absurd (hrow.trans hupper) (not_le.mpr zero_lt_one)

/-- Rows without a selector. -/
theorem always {truth : Valuation → Bool}
    (h : ∀ x v, Reads u x v → v.InBox settings (u.ofKind .numeric) → Guards none x rows (truth v)) :
    Expresses u settings [] rows fun v => truth v = true := by
  have hiff (x : String → Rat) (v : Valuation) (hx : Reads u x v)
      (hbox : v.InBox settings (u.ofKind .numeric)) :
      (∀ row ∈ rows, row.Holds x) ↔ truth v = true :=
    (h x v hx hbox).on (by rintro _ ⟨⟩)
  refine ⟨fun x v hx hbox _ => (hiff x v hx hbox).mp, fun v hbox hv => ⟨[], rfl, ?_⟩⟩
  exact fun x hx _ => ⟨by simp, (hiff x v hx hbox).mpr hv⟩

/-- Terms with a selector each, of which one must be on. -/
theorem oneOf {terms : List (String × Term Rat)} (label : String)
    (h : ∀ x v, Reads u x v → v.InBox settings (u.ofKind .numeric) →
      (∀ t ∈ terms, x t.1 = 0 ∨ x t.1 = 1) →
        ((∀ row ∈ rows, row.Holds x) ↔ ∀ t ∈ terms, x t.1 = 1 →
          t.2.all (Clause.eval (.margin settings.epsilon.value) v) = true)) :
    Expresses u settings ((terms.map (·.1)).map fun s => ⟨s, .binary, 0, 1⟩)
      (rows ++ [⟨(terms.map (·.1)).map fun s => (s, 1), .ge, 1, label, none⟩])
      fun v => ∃ t ∈ terms, t.2.all (Clause.eval (.margin settings.epsilon.value) v) = true := by
  have hsum (x : String → Rat) : (((terms.map (·.1)).map fun s => (s, (1 : Rat))).map
      fun t => t.2 * x t.1) = terms.map fun t => x t.1 := by
    rw [List.map_map, List.map_map]
    exact List.map_congr_left fun t _ => one_mul _
  constructor
  · intro x v hx hbox hvars hrows
    have hbinary : ∀ t ∈ terms, x t.1 = 0 ∨ x t.1 = 1 := fun t ht =>
      (hvars _ (List.mem_map_of_mem (List.mem_map_of_mem ht))).2.2 rfl
    obtain ⟨hterms, hone⟩ := List.forall_mem_append.mp hrows
    have hge : 1 ≤ (terms.map fun t => x t.1).sum := by
      have hrow := hone _ List.mem_cons_self
      rwa [Row.holds_plain, hsum] at hrow
    by_contra hnone
    -- were all selectors off, their sum would be zero
    have hzero : (terms.map fun t => x t.1).sum = 0 := by
      refine List.sum_eq_zero fun y hy => ?_
      obtain ⟨t, ht, rfl⟩ := List.mem_map.mp hy
      refine (hbinary t ht).resolve_right fun hon => hnone ⟨t, ht, ?_⟩
      exact (h x v hx hbox hbinary).mp hterms t ht hon
    rw [hzero] at hge
    exact absurd hge (not_le.mpr zero_lt_one)
  · rintro v hbox ⟨t, ht, htrue⟩
    let value (t : String × Term Rat) : Rat :=
      if t.2.all (Clause.eval (.margin settings.epsilon.value) v) then 1 else 0
    refine ⟨terms.map fun t => (t.1, value t), ?_, fun x hx hvalues => ?_⟩
    · rw [List.map_map, List.map_map, List.map_map]
      rfl
    have hvalue : ∀ t ∈ terms, x t.1 = value t := fun t ht =>
      hvalues _ (List.mem_map_of_mem (f := fun t => (t.1, value t)) ht)
    have hrange (t : String × Term Rat) :
        0 ≤ value t ∧ value t ≤ 1 ∧ (value t = 0 ∨ value t = 1) := by
      dsimp only [value]
      split
      · exact ⟨zero_le_one, le_rfl, .inr rfl⟩
      · exact ⟨le_rfl, zero_le_one, .inl rfl⟩
    have hbinary : ∀ t ∈ terms, x t.1 = 0 ∨ x t.1 = 1 := fun t ht => by
      rw [hvalue t ht]
      exact (hrange t).2.2
    constructor
    · rw [List.map_map, List.forall_mem_map]
      intro t ht
      obtain ⟨hlower, hupper, hone⟩ := hrange t
      rw [← hvalue t ht] at hlower hupper hone
      exact ⟨hlower, hupper, fun _ => hone⟩
    · rw [List.forall_mem_append, List.forall_mem_singleton, Row.holds_plain, hsum]
      constructor
      · refine (h x v hx hbox hbinary).mpr fun t ht hon => ?_
        by_contra hfalse
        rw [hvalue t ht] at hon
        exact zero_ne_one ((if_neg hfalse).symm.trans hon)
      · have hone : x t.1 = 1 := (hvalue t ht).trans (if_pos htrue)
        rw [← hone]
        refine List.single_le_sum (fun y hy => ?_) _ (List.mem_map_of_mem ht)
        obtain ⟨s, hs, rfl⟩ := List.mem_map.mp hy
        rw [hvalue s hs]
        exact (hrange s).1

end Expresses

/-! ### Rules -/

section Rules

variable {u : Usage} {clauses : List (Clause Rat)} (hu : u.Covers clauses)
  (settings : Settings Rat)

include hu

/-- The encoding of a rule says that some term of its normal form is true with a margin. -/
theorem Encoding.exists_ofDnf {dnf : Dnf Rat} (hdnf : dnf.Within u.Knows) (position : Nat)
    (rule : String) :
    ∃ e, ofDnf position rule dnf (u.vocabulary settings) settings = .ok e ∧
      Expresses u settings e.vars e.rows fun v =>
        dnf.eval (.margin settings.epsilon.value) v = true := by
  rcases shape dnf with rfl | htrue | ⟨term, hterm, rfl⟩ | ⟨hlen, hne⟩
  · refine ⟨_, ofDnf_nil, (Expresses.never _ _).congr fun v => ?_⟩
    exact iff_of_false id Bool.false_ne_true
  · refine ⟨{}, ofDnf_of_mem htrue, Expresses.nothing.congr fun v => ?_⟩
    exact iff_of_true trivial (Dnf.eval_eq_true.mpr ⟨[], htrue, by simp⟩)
  · obtain ⟨rows, hrows, hguards⟩ :=
      exists_termRows hu settings (hdnf term List.mem_cons_self) rule 0 none
    refine ⟨{ rows }, by rw [ofDnf_singleton hterm, hrows]; rfl, ?_⟩
    refine (Expresses.always hguards).congr fun v => ?_
    rw [Dnf.eval, List.any_cons, List.any_nil, Bool.or_false]
  · let selectors := selectorNames (toString position ++ ":" ++ rule) dnf.length
    have hlength : selectors.length = dnf.length := by
      simp [selectors, selectorNames]
    have hfst : (selectors.zip dnf).map (·.1) = selectors :=
      List.map_fst_zip hlength.le
    have hsnd : (selectors.zip dnf).map (·.2) = dnf :=
      List.map_snd_zip hlength.ge
    have hknown : ∀ t ∈ selectors.zip dnf, ∀ c ∈ t.2, u.Knows c := fun t ht =>
      hdnf t.2 (hsnd ▸ List.mem_map_of_mem ht)
    obtain ⟨rows, hrows, hholds⟩ := exists_termsRows hu settings hknown rule 0
    refine ⟨_, by rw [ofDnf_of_two_le hlen hne, hrows]; rfl, ?_⟩
    have hexpresses := Expresses.oneOf (rule ++ ": at least one term") hholds
    rw [hfst] at hexpresses
    refine hexpresses.congr fun v => ?_
    rw [Dnf.eval, ← hsnd, List.any_map, List.any_eq_true]
    simp only [hsnd, Function.comp_apply]

/-- The encodings of rules say that the valuation is tight for all of them. -/
theorem Program.exists_encodings {rules : List (Rule Rat)}
    (hrules : ∀ r ∈ rules, ∃ d, r.dnf = .ok d ∧ d.Within u.Knows) (position : Nat) :
    ∃ parts, encodings (u.vocabulary settings) settings position rules = .ok parts ∧
      Expresses u settings (parts.flatMap (·.2.vars)) (parts.flatMap (·.2.rows)) fun v =>
        ∀ r ∈ rules, r.TightAt settings v := by
  induction rules generalizing position with
  | nil => exact ⟨[], rfl, Expresses.nothing.congr fun v => by simp⟩
  | cons r rules ih =>
    obtain ⟨d, hd, hknown⟩ := hrules r List.mem_cons_self
    obtain ⟨e, he, hexpresses⟩ := Encoding.exists_ofDnf hu settings hknown position r.name
    obtain ⟨rest, hrest, hall⟩ :=
      ih (fun s hs => hrules s (List.mem_cons_of_mem r hs)) (position + 1)
    refine ⟨(r.name, e) :: rest, ?_, (hexpresses.append hall).congr fun v => ?_⟩
    · rw [encodings, hd, Outcome.ok_bind, he, Outcome.ok_bind, hrest]
      rfl
    · rw [List.forall_mem_cons, Rule.tightAt_iff hd]

end Rules

/-! ### Programs -/

/-- The numeric variables of the normal forms of rules. -/
def numericVars (rules : List (Rule Rat)) : List String :=
  namesOf .numeric ((rules.flatMap Rule.clauses).flatMap Clause.uses)

section Programs

variable {u : Usage} {rules : List (Rule Rat)} {settings : Settings Rat}

private theorem inBox_iff (hu : u.Covers (rules.flatMap Rule.clauses)) {v : Valuation} :
    v.InBox settings (numericVars rules) ↔ v.InBox settings (u.ofKind .numeric) :=
  forall_congr' fun n => by rw [numericVars, mem_namesOf, hu.mem_ofKind]

/-- All clauses of rules that agree on kinds can be encoded. -/
private theorem within_knows (hu : u.Covers (rules.flatMap Rule.clauses)) {r : Rule Rat}
    (hr : r ∈ rules) {d : Dnf Rat} (hd : r.dnf = .ok d) (hproper : d.Within Clause.IsProper) :
    d.Within u.Knows := by
  intro term hterm c hc
  have hmem : c ∈ rules.flatMap Rule.clauses := by
    refine List.mem_flatMap.mpr ⟨r, hr, ?_⟩
    rw [Rule.clauses_eq hd]
    exact List.mem_flatten.mpr ⟨term, hterm, hc⟩
  cases c with
  | linear c =>
    intro n hn
    exact hu.mem_ofKind.mpr (List.mem_flatMap.mpr ⟨_, hmem, List.mem_map_of_mem hn⟩)
  | membership c =>
    refine ⟨fun hnil => ?_, fun l hl => (hu.labels.mem_iff _ l).mpr ⟨_, hmem, rfl, hl⟩⟩
    have hconst := (Rule.isReduced hd).constant?_eq_none hterm hc
    rw [Clause.constant?, hnil] at hconst
    cases hconst
  | foreign e => exact hproper term hterm _ hc

/-- Rules that agree on kinds have a program, whose encodings say that a valuation is tight. -/
theorem Program.exists_assemble (hrules : KindConsistent rules) (settings : Settings Rat) :
    ∃ u parts, u.Covers (rules.flatMap Rule.clauses) ∧
      ofRules rules settings = .ok (assemble (u.vocabulary settings) parts) ∧
      Expresses u settings (parts.flatMap (·.2.vars)) (parts.flatMap (·.2.rows)) fun v =>
        ∀ r ∈ rules, r.TightAt settings v := by
  obtain ⟨u, hu⟩ := Usage.exists_ofRules_iff.mpr hrules
  obtain ⟨hcovers, hnormal⟩ := Usage.covers_ofRules hu
  have hknown : ∀ r ∈ rules, ∃ d, r.dnf = .ok d ∧ d.Within u.Knows := fun r hr => by
    obtain ⟨d, hd, hproper⟩ := hnormal r hr
    exact ⟨d, hd, within_knows hcovers hr hd hproper⟩
  obtain ⟨parts, hparts, hexpresses⟩ := Program.exists_encodings hcovers settings hknown 0
  exact ⟨u, parts, hcovers, ofRules_eq_ok.mpr ⟨u, parts, hu, hparts, rfl⟩, hexpresses⟩

variable {parts : List (String × Encoding Rat)} {truth : Valuation → Prop}

/-- A feasible point is read as a valuation in the box of which the encodings are true. -/
theorem Program.decode_of_feasible (hu : u.Covers (rules.flatMap Rule.clauses))
    (hexpresses : Expresses u settings (parts.flatMap (·.2.vars)) (parts.flatMap (·.2.rows)) truth)
    {point : List (String × Rat)}
    (hpoint : (assemble (u.vocabulary settings) parts).Feasible point) :
    ∃ a, (assemble (u.vocabulary settings) parts).decode point = .ok a ∧
      a = (Valuation.ofReadings a).readings (.assemble (u.vocabulary settings) parts) ∧
      (Valuation.ofReadings a).InBox settings (numericVars rules) ∧ truth (.ofReadings a) := by
  have hvars : ∀ d ∈ (u.vocabulary settings).vars ++ parts.flatMap (·.2.vars),
      Assoc.get? d.name point = some (pointAt point d.name) ∧ d.Admits (pointAt point d.name) :=
    fun d hd => hpoint.get? hd
  obtain ⟨hvocabulary, hencodings⟩ := List.forall_mem_append.mp hvars
  obtain ⟨hone, hrows⟩ := List.forall_mem_append.mp hpoint.rows
  obtain ⟨v, hreads⟩ := exists_reads hu (fun d hd => (hvocabulary d hd).2) hone
  refine ⟨v.readings (.assemble (u.vocabulary settings) parts), ?_,
    (v.readings_ofReadings hu).symm, ?_⟩
  · rw [hu.vars_eq] at hvocabulary
    obtain ⟨hnumeric, hindicators⟩ := List.forall_mem_append.mp hvocabulary
    refine decode_eq hu (fun n hn => ?_) fun n hn l hl => ?_
    · rw [← hreads.number n hn]
      exact (hnumeric _ (List.mem_map_of_mem hn)).1
    · rw [← hreads.label n hn l hl]
      exact (hindicators _ (List.mem_flatMap.mpr ⟨n, hn, List.mem_map_of_mem hl⟩)).1
  · have hreads' : Reads u (pointAt point)
        (.ofReadings (v.readings (.assemble (u.vocabulary settings) parts))) :=
      hreads.ofReadings hu
    have hbox := hreads'.inBox hu fun d hd => (hvocabulary d hd).2
    exact ⟨(inBox_iff hu).mpr hbox,
      hexpresses.sound _ _ hreads' hbox (fun d hd => (hencodings d hd).2) hrows⟩

/-- A valuation in the box of which the encodings are true is read off a feasible point. -/
theorem Program.exists_feasible (hu : u.Covers (rules.flatMap Rule.clauses))
    (hexpresses : Expresses u settings (parts.flatMap (·.2.vars)) (parts.flatMap (·.2.rows)) truth)
    (hnames : ((assemble (u.vocabulary settings) parts).vars.map (·.name)).Nodup) {v : Valuation}
    (hbox : v.InBox settings (numericVars rules)) (hv : truth v) :
    ∃ point, (assemble (u.vocabulary settings) parts).Feasible point ∧
      (assemble (u.vocabulary settings) parts).decode point =
        .ok (v.readings (.assemble (u.vocabulary settings) parts)) := by
  rw [inBox_iff hu] at hbox
  obtain ⟨values, hvalues, hholds⟩ := hexpresses.complete v hbox hv
  let numbers := (u.ofKind .numeric).map fun n => (numericName n, v.number n)
  let labels := (u.ofKind .categorical).flatMap fun n =>
    (u.options n).map fun l => (indicatorName n l, if u.choice v n = l then (1 : Rat) else 0)
  let point := numbers ++ labels ++ values
  have hkeys : point.map (·.1) = (assemble (u.vocabulary settings) parts).vars.map (·.name) := by
    have hassemble : (assemble (u.vocabulary settings) parts).vars =
        (u.vocabulary settings).vars ++ parts.flatMap (·.2.vars) := rfl
    rw [hassemble, List.map_append, List.map_append, List.map_append, hvalues,
      Usage.names_vocabulary hu, List.map_map, List.map_flatMap]
    simp only [List.map_map]
    rfl
  have hget : ∀ e ∈ point, Assoc.get? e.1 point = some e.2 := fun e he =>
    Assoc.get?_of_mem (hkeys ▸ hnames) he
  have hnumber : ∀ n ∈ u.ofKind .numeric, Assoc.get? (numericName n) point = some (v.number n) :=
    fun n hn => hget (numericName n, v.number n)
      (List.mem_append_left _ (List.mem_append_left _ (List.mem_map_of_mem hn)))
  have hlabel : ∀ n ∈ u.ofKind .categorical, ∀ l ∈ u.options n,
      Assoc.get? (indicatorName n l) point = some (if u.choice v n = l then 1 else 0) :=
    fun n hn l hl => hget (indicatorName n l, if u.choice v n = l then 1 else 0)
      (List.mem_append_left _ (List.mem_append_right _
        (List.mem_flatMap.mpr ⟨n, hn, List.mem_map_of_mem hl⟩)))
  have hreads : Reads u (pointAt point) v :=
    ⟨fun n hn => pointAt_eq (hnumber n hn), fun n hn l hl => pointAt_eq (hlabel n hn l hl)⟩
  obtain ⟨hadmits, hrows⟩ := hholds (pointAt point) hreads fun e he =>
    pointAt_eq (hget e (List.mem_append_right _ he))
  refine ⟨point, ⟨fun d hd => ⟨pointAt point d.name, ?_, ?_⟩, ?_⟩, decode_eq hu hnumber hlabel⟩
  · exact get?_eq_pointAt (hkeys ▸ List.mem_map_of_mem hd)
  · rcases List.mem_append.mp hd with hd | hd
    · exact hreads.admits hu hbox d hd
    · exact hadmits d hd
  · exact List.forall_mem_append.mpr ⟨hreads.exactlyOne_holds hu, hrows⟩

end Programs

/-- **The encoding is exact.** The program of rules that agree on the kind of every variable is
there. Every feasible point is read as a valuation in the box that is tight for every rule; and
every such valuation, with none for the labels that no rule mentions, is what is read off some
feasible point, if the decision variables have different names. -/
theorem Program.feasible_iff_tight {rules : List (Rule Rat)} (hrules : KindConsistent rules)
    (settings : Settings Rat) :
    ∃ p, Program.ofRules rules settings = .ok p ∧
      (∀ point, p.Feasible point → ∃ a, p.decode point = .ok a ∧
        a = (Valuation.ofReadings a).readings p ∧
        (Valuation.ofReadings a).InBox settings (numericVars rules) ∧
        ∀ r ∈ rules, r.TightAt settings (.ofReadings a)) ∧
      ((p.vars.map (·.name)).Nodup → ∀ v : Valuation, v.InBox settings (numericVars rules) →
        (∀ r ∈ rules, r.TightAt settings v) →
          ∃ point, p.Feasible point ∧ p.decode point = .ok (v.readings p)) := by
  obtain ⟨u, parts, hu, hp, hexpresses⟩ := Program.exists_assemble hrules settings
  refine ⟨_, hp, fun point hpoint => Program.decode_of_feasible hu hexpresses hpoint, ?_⟩
  intro hnames v hbox htight
  exact Program.exists_feasible hu hexpresses hnames hbox htight

/-- A strict clause or a label: with the number four and any other label, the rule is tight, and
this is read off a feasible point. -/
theorem Program.feasible_iff_tight_strict_or_label :
    let far : Clause Rat := .linear (.canonical [(⟨"x", by decide⟩, 1)] .gt 3)
    let red : Clause Rat := .membership (.ofLabels ⟨"c", by decide⟩ ["red"] false)
    let r : Rule Rat :=
      ⟨"r", .or [.atom far, .atom red], none, by decide +kernel, by simp, none⟩
    let v : Valuation := ⟨fun _ => 4, fun _ => none⟩
    KindConsistent [r] ∧ ∃ settings p, Settings.default = .ok settings ∧
      Program.ofRules [r] settings = .ok p ∧ (p.vars.map (·.name)).Nodup ∧
      r.TightAt settings v ∧ ∃ point, p.Feasible point ∧ p.decode point = .ok (v.readings p) := by
  intro far red r v
  have hkinds : KindConsistent [r] := by decide +kernel
  have hsettings : (Settings.default (K := Rat)).toOption.any (fun s =>
      ((Program.ofRules [r] s).toOption.any fun p => decide (p.vars.map (·.name)).Nodup) &&
        (r.dnf.toOption.any fun d => d.eval (.margin s.epsilon.value) v) &&
          (numericVars [r]).all fun n => decide (|v.number n| ≤ s.bound n)) = true := by
    decide +kernel
  obtain ⟨settings, hdefault, hall⟩ := Outcome.exists_of_any_toOption hsettings
  rw [Bool.and_eq_true, Bool.and_eq_true] at hall
  obtain ⟨⟨hprogram, hdnf⟩, hbox⟩ := hall
  obtain ⟨p, hp, hnames⟩ := Outcome.exists_of_any_toOption hprogram
  have htight : r.TightAt settings v := Outcome.exists_of_any_toOption hdnf
  obtain ⟨q, hq, -, hpoints⟩ := Program.feasible_iff_tight hkinds settings
  obtain rfl := Except.ok.inj (hp.symm.trans hq)
  refine ⟨hkinds, settings, p, hdefault, hp, of_decide_eq_true hnames, htight, ?_⟩
  refine hpoints (of_decide_eq_true hnames) v (fun n hn => ?_) fun s hs => ?_
  · exact of_decide_eq_true (List.all_eq_true.mp hbox n hn)
  · exact List.mem_singleton.mp hs ▸ htight

end RuleAudit
