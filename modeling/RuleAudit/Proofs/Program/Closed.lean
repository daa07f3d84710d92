import RuleAudit.Proofs.Program.Vocabulary
import RuleAudit.Proofs.Rule.Flaws
import RuleAudit.Solver

/-!
# Programs that mention their own variables only

Every row of a program of rules is about decision variables of the program: those of the rules'
variables, or the selectors of a rule. So a solver finds each name that it looks up
(`Program.ends_ofRules`), and it is complete when its points have values for these variables. The
program is made unless a definition is malformed, since the tables of the variables in use have what
the rows are made from.
-/

namespace RuleAudit

open Outcome

variable {K : Type}

/-! ### Names in rows -/

/-- A row has variables and a switch with names from a list only. -/
def Row.UsesOnly (r : Row K) (names : List String) : Prop :=
  ∀ e ∈ r.coefs, e.1 ∈ names

/-- The names of decision variables. -/
def DecisionVar.names (vars : List (DecisionVar K)) : List String :=
  vars.map (·.name)

/-- The rows and the objective of a program are about its variables. -/
structure Program.IsClosed (p : Program K) : Prop where
  rows : ∀ r ∈ p.rows, r.UsesOnly (DecisionVar.names p.vars)
  objective : ∀ e ∈ p.objective, e.1 ∈ DecisionVar.names p.vars

section Mk

variable {terms : List (String × K)} {sense : Sense} {bound : K} {label : String}
  {names : List String} (hterms : ∀ t ∈ terms, t.1 ∈ names)

include hterms

theorem Row.usesOnly_plain : UsesOnly ⟨terms, sense, bound, label, none⟩ names :=
  hterms

/-- A row uses the names of its terms, and the selector that it hangs on. -/
theorem Row.usesOnly_switched {selector : Option String} {relief : K}
    (hselector : ∀ s ∈ selector, s ∈ names) :
    UsesOnly ⟨terms, sense, bound, label, selector.map (⟨·, relief⟩)⟩ names := by
  cases selector with
  | none => exact Row.usesOnly_plain hterms
  | some s =>
    exact List.forall_mem_append.mpr ⟨hterms, List.forall_mem_singleton.mpr (hselector s rfl)⟩

end Mk

theorem Row.UsesOnly.mono {r : Row K} {names names' : List String} (h : r.UsesOnly names)
    (hnames : names ⊆ names') : r.UsesOnly names' :=
  fun e he => hnames (h e he)

variable [Scalar K]

/-! ### Rows of clauses -/

theorem Usage.failsOnly_ofRules (rules : List (Rule K)) :
    FailsOnly Error.IsDefinition (ofRules rules) :=
  failsOnly_foldlM fun r _ _ => r.failsOnly_kinds.bind fun _ _ =>
    (failsOnly_mergeKinds _ _ _ _).bind fun _ _ => r.failsOnly_dnf.map _

section Rows

variable {u : Usage} {clauses : List (Clause K)} (hu : u.Covers clauses) (settings : Settings K)
  {names : List String}

include hu

theorem Usage.Covers.numericName_mem {n : String} (hn : n ∈ u.ofKind .numeric) :
    numericName n ∈ DecisionVar.names (u.vocabulary settings).vars := by
  rw [DecisionVar.names, hu.vars_eq, List.map_append, List.map_map]
  exact List.mem_append_left _ (List.mem_map_of_mem hn)

theorem Usage.Covers.indicatorName_mem {n : String} {l : Option String}
    (hn : n ∈ u.ofKind .categorical) (hl : l ∈ u.options n) :
    indicatorName n l ∈ DecisionVar.names (u.vocabulary settings).vars := by
  rw [DecisionVar.names, hu.vars_eq, List.map_append, List.map_flatMap]
  refine List.mem_append_right _ (List.mem_flatMap.mpr ⟨n, hn, ?_⟩)
  rw [List.map_map]
  exact List.mem_map_of_mem hl

variable {E : Error K → Prop} (hnames : DecisionVar.names (u.vocabulary settings).vars ⊆ names)
  {selector : Option String} (hselector : ∀ s ∈ selector, s ∈ names)

include hnames hselector

theorem LinearClause.ends_rows {c : LinearClause K} (hc : .linear c ∈ clauses) (label : String) :
    Ends E (∀ r ∈ ·, r.UsesOnly names)
      (c.rows (u.vocabulary settings) settings selector label) := by
  refine Ends.bind (ends_mapM (Q := fun t : String × K => t.1 ∈ names) fun ⟨n, a⟩ ht => ?_)
    fun terms hterms => ?_
  · have hn : n ∈ u.ofKind .numeric := hu.mem_ofKind.mpr
      (List.mem_flatMap.mpr ⟨_, hc, List.mem_map_of_mem (List.mem_map_of_mem ht)⟩)
    dsimp only
    rw [hu.numericVar_eq hn]
    exact ends_ok (hnames (hu.numericName_mem settings hn))
  · have hrow (sense : Sense) (relief : K) : Row.UsesOnly ⟨terms, sense, c.tightRhs settings, label,
        selector.map (⟨·, relief⟩)⟩ names := Row.usesOnly_switched hterms hselector
    cases selector with
    | none => exact ends_ok (List.forall_mem_singleton.mpr (Row.usesOnly_plain hterms))
    | some s =>
      refine ends_ok ?_
      split
      · exact List.forall_mem_singleton.mpr (hrow _ _)
      · exact List.forall_mem_singleton.mpr (hrow _ _)
      · exact List.forall_mem_cons.mpr ⟨hrow _ _, List.forall_mem_singleton.mpr (hrow _ _)⟩

/-- A clause without labels is malformed; every other one has a row. -/
theorem MembershipClause.ends_rows {c : MembershipClause} (hc : .membership c ∈ clauses)
    (hempty : c.labels = [] → E (.encoding {} (.emptyLabels c.toText))) (label : String) :
    Ends E (∀ r ∈ ·, r.UsesOnly names)
      (c.rows (u.vocabulary settings) selector label) := by
  have hn : c.subject ∈ u.ofKind .categorical := hu.mem_ofKind.mpr
    (List.mem_flatMap.mpr ⟨_, hc, List.mem_singleton_self _⟩)
  have hterms : (c.labels.mapM fun l => do
      return ((← Vocabulary.labelVar ((u.options c.subject).map fun l =>
        (l, Vocabulary.indicator c.subject l)) l).name, (1 : K))) =
          (.ok (c.labels.map fun l => (indicatorName c.subject (some l), 1)) :
            Except (Error K) _) := by
    refine mapM_eq_map fun l hl => ?_
    have hl : l ∈ labelsOf u.labels c.subject := (hu.labels.mem_iff _ l).mpr ⟨_, hc, rfl, hl⟩
    rw [Usage.labelVar_eq hl]
    rfl
  have hcolumns : ∀ t ∈ c.labels.map fun l => (indicatorName c.subject (some l), (1 : K)),
      t.1 ∈ names := List.forall_mem_map.mpr fun l hl => by
    have hl : l ∈ labelsOf u.labels c.subject := (hu.labels.mem_iff _ l).mpr ⟨_, hc, rfl, hl⟩
    exact hnames (hu.indicatorName_mem settings hn (Usage.some_mem_options.mpr hl))
  rw [rows, hu.labelVars_eq hn, ok_bind, hterms, ok_bind]
  refine ends_ite (fun hnil => Ends.bind (P := fun _ => False) (ends_error (hempty ?_)) fun _ h =>
    h.elim) fun _ => ends_ok ?_
  · simpa using hnil
  · split
    · exact List.forall_mem_singleton.mpr (Row.usesOnly_switched hcolumns hselector)
    · exact List.forall_mem_singleton.mpr (Row.usesOnly_switched hcolumns hselector)

end Rows

/-- The rows of a clause are about a vocabulary and the selector that they hang on, and they fail in
given ways only. -/
def Clause.RowsEnd (E : Error K → Prop) (vocabulary : Vocabulary K) (settings : Settings K)
    (rule : String) (c : Clause K) : Prop :=
  ∀ index selector names, DecisionVar.names vocabulary.vars ⊆ names →
    (∀ s ∈ selector, s ∈ names) → Ends E (∀ r ∈ ·, r.UsesOnly names)
      (c.rows rule index vocabulary settings selector)

section Clauses

variable {u : Usage} {clauses : List (Clause K)} (hu : u.Covers clauses) (settings : Settings K)
  {c : Clause K} (hc : c ∈ clauses) (rule : String)

include hu hc

/-- A clause that a vocabulary was made for has rows, unless it is malformed. -/
theorem Clause.rowsEnd : c.RowsEnd (Tree.isSkippable · = true) (u.vocabulary settings) settings
    rule := by
  intro index selector names hnames hselector
  cases c with
  | linear c => exact c.ends_rows hu settings hnames hselector hc _
  | membership c =>
    have hempty : c.labels = [] → Tree.isSkippable (K := K)
        (.encoding {} (.emptyLabels c.toText)) = true := fun _ => rfl
    exact c.ends_rows hu settings hnames hselector hc hempty _
  | foreign d => exact ends_error rfl

/-- A clause that is not constant has rows. -/
theorem Clause.rowsEnd_of_open (E : Error K → Prop) (hproper : c.IsProper)
    (hopen : c.constant? = none) : c.RowsEnd E (u.vocabulary settings) settings rule := by
  intro index selector names hnames hselector
  cases c with
  | linear c => exact c.ends_rows hu settings hnames hselector hc _
  | membership c =>
    refine c.ends_rows hu settings hnames hselector hc (fun hnil => ?_) _
    rw [constant?, hnil] at hopen
    cases hopen
  | foreign d => cases hproper

end Clauses

/-! ### Rows of rules -/

section Encodings

variable {E : Error K → Prop} {vocabulary : Vocabulary K} {settings : Settings K} {rule : String}

namespace Encoding

theorem ends_termRows {term : Term K} (hterm : ∀ c ∈ term, c.RowsEnd E vocabulary settings rule)
    {names : List String} (hnames : DecisionVar.names vocabulary.vars ⊆ names)
    {selector : Option String} (hselector : ∀ s ∈ selector, s ∈ names) (index : Nat) :
    Ends E (∀ r ∈ ·, r.UsesOnly names)
      (termRows rule vocabulary settings selector index term) := by
  induction term generalizing index with
  | nil => exact ends_ok (List.forall_mem_nil _)
  | cons c term ih =>
    obtain ⟨hc, hterm⟩ := List.forall_mem_cons.mp hterm
    rw [termRows]
    exact (hc index selector names hnames hselector).bind fun _ hrows =>
      (ih hterm _).map fun _ hrest => List.forall_mem_append.mpr ⟨hrows, hrest⟩

theorem ends_termsRows {terms : List (String × Term K)}
    (hterms : ∀ t ∈ terms, ∀ c ∈ t.2, c.RowsEnd E vocabulary settings rule)
    {names : List String} (hnames : DecisionVar.names vocabulary.vars ⊆ names)
    (hselectors : ∀ t ∈ terms, t.1 ∈ names) (index : Nat) :
    Ends E (∀ r ∈ ·, r.UsesOnly names) (termsRows rule vocabulary settings index terms) := by
  induction terms generalizing index with
  | nil => exact ends_ok (List.forall_mem_nil _)
  | cons t terms ih =>
    obtain ⟨ht, hterms⟩ := List.forall_mem_cons.mp hterms
    obtain ⟨hselector, hselectors⟩ := List.forall_mem_cons.mp hselectors
    rw [termsRows]
    have hown : ∀ s ∈ some t.1, s ∈ names := fun s hs => Option.some.inj hs ▸ hselector
    exact (ends_termRows ht hnames hown _).bind fun _ hrows =>
      (ih hterms hselectors _).map fun _ hrest => List.forall_mem_append.mpr ⟨hrows, hrest⟩

/-- The rows of a rule use the vocabulary and the rule's own variables. -/
theorem ends_ofDnf {dnf : Dnf K} (hdnf : dnf.Within (Clause.RowsEnd E vocabulary settings rule))
    (position : Nat) :
    Ends E (fun e => ∀ r ∈ e.rows, r.UsesOnly (DecisionVar.names vocabulary.vars ++
        DecisionVar.names e.vars)) (ofDnf position rule dnf vocabulary settings) := by
  rcases shape dnf with rfl | hmem | ⟨term, hne, rfl⟩ | ⟨hlen, hmem⟩
  · -- the row that no point meets has a variable of its own
    rw [ofDnf_nil]
    refine ends_ok (List.forall_mem_singleton.mpr (Row.usesOnly_plain ?_))
    exact List.forall_mem_singleton.mpr (List.mem_append_right _ (List.mem_singleton_self _))
  · rw [ofDnf_of_mem hmem]
    exact ends_ok (List.forall_mem_nil _)
  · rw [ofDnf_singleton hne]
    have hnone : ∀ s ∈ (none : Option String), s ∈ DecisionVar.names vocabulary.vars ++
        DecisionVar.names ([] : List (DecisionVar K)) := fun _ h => nomatch h
    exact (ends_termRows (hdnf term List.mem_cons_self) (List.subset_append_left _ _) hnone 0).bind
      fun _ hrows => ends_ok hrows
  · -- each term hangs on a selector of the rule
    rw [ofDnf_of_two_le hlen hmem]
    have hown : ∀ s ∈ selectorNames (toString position ++ ":" ++ rule) dnf.length,
        s ∈ DecisionVar.names vocabulary.vars ++ DecisionVar.names
          ((selectorNames (toString position ++ ":" ++ rule) dnf.length).map
            fun s => (⟨s, .binary, 0, 1⟩ : DecisionVar K)) := fun s hs => by
      refine List.mem_append_right _ ?_
      rw [DecisionVar.names, List.map_map]
      exact List.mem_map.mpr ⟨s, hs, rfl⟩
    refine (ends_termsRows (fun t ht => hdnf t.2 (List.of_mem_zip ht).2)
      (List.subset_append_left _ _) (fun t ht => hown t.1 (List.of_mem_zip ht).1) 0).bind
        fun rows hrows => ends_ok ?_
    refine List.forall_mem_append.mpr ⟨hrows, List.forall_mem_singleton.mpr ?_⟩
    refine Row.usesOnly_plain fun t ht => ?_
    obtain ⟨s, hs, rfl⟩ := List.mem_map.mp ht
    exact hown s hs

end Encoding

/-- The rows of rules use the vocabulary and the rules' own variables. -/
theorem Program.ends_encodings {rules : List (Rule K)} (hdnf : ∀ r ∈ rules, FailsOnly E r.dnf)
    (hrules : ∀ r ∈ rules, ∀ d, r.dnf = .ok d →
      d.Within (Clause.RowsEnd E vocabulary settings r.name)) (position : Nat) :
    Ends E (fun parts => ∀ part ∈ parts, ∀ r ∈ part.2.rows, r.UsesOnly
        (DecisionVar.names vocabulary.vars ++ DecisionVar.names part.2.vars))
      (encodings vocabulary settings position rules) := by
  induction rules generalizing position with
  | nil => exact ends_ok (List.forall_mem_nil _)
  | cons r rules ih =>
    obtain ⟨hd, hdnf⟩ := List.forall_mem_cons.mp hdnf
    obtain ⟨hr, hrules⟩ := List.forall_mem_cons.mp hrules
    rw [encodings]
    exact hd.ends.bind fun d hd => (Encoding.ends_ofDnf (hr d hd) _).bind fun _ he =>
      (ih hdnf hrules _).map fun _ hparts => List.forall_mem_cons.mpr ⟨he, hparts⟩

end Encodings

/-- The clauses of rules are those of their normal forms. -/
theorem Rule.within_clauses {r : Rule K} {d : Dnf K} {rules : List (Rule K)} (hr : r ∈ rules)
    (hd : r.dnf = .ok d) : d.Within (· ∈ rules.flatMap Rule.clauses) := by
  intro term hterm c hc
  refine List.mem_flatMap.mpr ⟨r, hr, ?_⟩
  rw [clauses_eq hd]
  exact List.mem_flatten.mpr ⟨term, hterm, hc⟩

/-- Every categorical variable takes one of its own labels. -/
theorem Vocabulary.usesOnly_exactlyOne (v : Vocabulary K) :
    ∀ r ∈ v.exactlyOne, r.UsesOnly (DecisionVar.names v.vars) := by
  intro r hr
  obtain ⟨⟨name, indicators⟩, hi, rfl⟩ := List.mem_map.mp hr
  refine Row.usesOnly_plain fun t ht => ?_
  obtain ⟨i, hmem, rfl⟩ := List.mem_map.mp ht
  refine List.mem_map_of_mem (List.mem_append_right _ (List.mem_flatMap.mpr ⟨_, hi, ?_⟩))
  exact List.mem_map_of_mem hmem

/-- **Closed programs.** Rules make a program that is about its own variables only, unless one of
them is malformed. -/
theorem Program.ends_ofRules (rules : List (Rule K)) (settings : Settings K) :
    Ends (Tree.isSkippable · = true) IsClosed (ofRules rules settings) := by
  refine ((Usage.failsOnly_ofRules rules).mono fun _ => Error.isSkippable_of_isDefinition).ends.bind
    fun u hu => ?_
  have hdnf : ∀ r ∈ rules, FailsOnly (Tree.isSkippable · = true) r.dnf := fun r _ =>
    r.failsOnly_dnf.mono fun _ => Error.isSkippable_of_isDefinition
  have hrules : ∀ r ∈ rules, ∀ d, r.dnf = .ok d → d.Within (Clause.RowsEnd
      (Tree.isSkippable · = true) (u.vocabulary settings) settings r.name) :=
    fun r hr d hd term hterm c hc => c.rowsEnd (Usage.covers_ofRules hu).1 settings
      (Rule.within_clauses hr hd term hterm c hc) r.name
  refine (ends_encodings hdnf hrules 0).map
    fun parts hparts => ⟨List.forall_mem_append.mpr ⟨fun r hr => ?_, fun r hr => ?_⟩,
      List.forall_mem_nil _⟩
  · refine ((u.vocabulary settings).usesOnly_exactlyOne r hr).mono ?_
    rw [DecisionVar.names, DecisionVar.names, List.map_append]
    exact List.subset_append_left _ _
  · obtain ⟨part, hpart, hr⟩ := List.mem_flatMap.mp hr
    refine (hparts part hpart r hr).mono ?_
    rw [DecisionVar.names, DecisionVar.names, DecisionVar.names, List.map_append]
    refine List.append_subset.mpr ⟨List.subset_append_left _ _, List.Subset.trans ?_
      (List.subset_append_right _ _)⟩
    exact List.map_subset _ fun d hd => List.mem_flatMap.mpr ⟨part, hpart, hd⟩

/-! ### Solving closed programs -/

/-- A point has a value for every variable of a program. -/
def Solution.Covers (solution : Solution K) (p : Program K) : Prop :=
  solution.status = .feasible → ∀ d ∈ p.vars, d.name ∈ solution.point.map (·.1)

/-- The points of a solver have values for all variables. -/
def Solver.IsComplete (solver : Solver K) : Prop :=
  ∀ settings p, p.IsClosed → ∀ solution, solver settings p = .ok solution → solution.Covers p

end RuleAudit
