import RuleAudit.Proofs.Dnf.Normalize
import RuleAudit.Proofs.Program.Usage
import RuleAudit.Proofs.Tree.RoundTrip

/-!
# Flaws are found in the order of the leaves

Normalising an expression meets its leaves from left to right, and nothing else can go wrong when
the numbers in it are finite (`Expr.normalize_of_negates`). A leaf is met without an error as long
as it is a clause and uses no variable with another kind than the leaves before it (`Leaf.Offends`),
so the first leaf of another sort is the one reported, whatever polarity it is met with and whatever
the form makes of it.
-/

namespace RuleAudit

variable {K : Type} [Scalar K]

/-! ### Leaves that are reported -/

/-- A leaf of an expression: a clause, or data that are no expression. -/
abbrev Leaf (K : Type) [Scalar K] := Clause K ⊕ Datum K

namespace Leaf

/-- The variables of some leaves, with the kinds that they are used with. -/
def uses (leaves : List (Leaf K)) : List (String × VarKind) :=
  leaves.flatMap (Sum.elim Clause.uses fun _ => [])

/-- What is reported of a leaf that comes after others: that it is no expression, that it is a
clause of neither kind, or its first variable that the others use with another kind. -/
inductive Offends (earlier : List (Leaf K)) : Leaf K → Flaw K → Prop
  | node (d : Datum K) : Offends earlier (.inr d) (.nodeType d.kindName)
  | clause (d : Datum K) : Offends earlier (.inl (.foreign d)) (.clauseType d.kindName)
  | kind {c : Clause K} {before after : List (String × VarKind)} {n : String} {now was : VarKind}
      (huses : c.uses = before ++ (n, now) :: after)
      (hbefore : ∀ u ∈ before, ∀ kind, (u.1, kind) ∈ uses earlier → kind = u.2)
      (hwas : (n, was) ∈ uses earlier) (hne : was ≠ now) :
      Offends earlier (.inl c) (.kindClash .sameRule n now was)

/-- No leaf is reported after those before it. -/
def Unobjectionable (leaves : List (Leaf K)) : Prop :=
  ∀ before leaf after flaw, leaves = before ++ leaf :: after → ¬ Offends before leaf flaw

end Leaf

/-- The first leaf of an expression that is reported has some flaw and comes after `index` atoms. -/
def Expr.FirstFlaw (e : Expr K) (index : Nat) (flaw : Flaw K) : Prop :=
  ∃ earlier leaf later, e.leaves = earlier ++ leaf :: later ∧ Leaf.Unobjectionable earlier ∧
    Leaf.Offends earlier leaf flaw ∧ index = earlier.countP Sum.isLeft

/-! ### Meeting one leaf -/

/-- A clause uses all its variables with the same kind. -/
theorem Clause.kind_eq_of_mem_uses {c : Clause K} {u u' : String × VarKind} (hu : u ∈ c.uses)
    (hu' : u' ∈ c.uses) : u.2 = u'.2 := by
  cases c with
  | linear c =>
    obtain ⟨n, -, rfl⟩ := List.mem_map.mp hu
    obtain ⟨n', -, rfl⟩ := List.mem_map.mp hu'
    rfl
  | membership c => rw [List.mem_singleton.mp hu, List.mem_singleton.mp hu']
  | foreign d => cases hu

namespace Census

variable {rule : Datum K} {census : Census} {seen : List (Leaf K)}
  {table used : List (String × VarKind)}

/-- A variable is entered unless it is in the table with another kind. -/
theorem registerVar_eq_error {site : Site K} {kind : VarKind} {n : String} {err : Error K}
    (h : Tabulates table used) : registerVar site kind table n = .error err ↔
      ∃ was, (n, was) ∈ used ∧ was ≠ kind ∧
        err = .definition site (.kindClash .sameRule n kind was) := by
  rw [registerVar]
  constructor
  · intro herr
    split at herr
    · cases herr
    · next was hwas =>
      split at herr
      · cases herr
      · next hne => exact ⟨was, h.get?_eq_some.mp hwas, hne, (Except.error.inj herr).symm⟩
  · rintro ⟨was, hwas, hne, rfl⟩
    rw [h.get?_eq_some.mpr hwas]
    exact if_neg hne

/-- Some variables of a clause can be entered when none of them is in the table with another
kind. -/
theorem exists_registerVars_iff (site : Site K) {c : Clause K} (h : Tabulates table used)
    {vars : List (String × VarKind)} (hvars : vars ⊆ c.uses) :
    (∃ after, vars.foldlM (fun table u => registerVar site u.2 table u.1) table = .ok after ∧
        Tabulates after (used ++ vars)) ↔
      ∀ u ∈ vars, ∀ kind, (u.1, kind) ∈ used → kind = u.2 := by
  constructor
  · rintro ⟨after, -, hafter⟩ u hu kind hkind
    exact hafter.kind_unique (List.mem_append_left _ hkind) (List.mem_append_right _ hu)
  · intro hkinds
    refine Outcome.exists_foldlM (fun seen table => Tabulates table (used ++ seen))
      (by rwa [List.append_nil]) fun seen u table hseen htable => ?_
    have hsubset := hseen.subset
    have hu : u ∈ vars := hsubset (by simp)
    cases hreg : registerVar site u.2 table u.1 with
    | ok after =>
      refine ⟨after, rfl, ?_⟩
      rw [← List.append_assoc]
      exact tabulates_registerVar htable hreg
    | error err =>
      obtain ⟨was, hwas, hne, -⟩ := (registerVar_eq_error htable).mp hreg
      refine absurd ?_ hne
      rcases List.mem_append.mp hwas with hwas | hwas
      · exact hkinds u hu was hwas
      · exact Clause.kind_eq_of_mem_uses (hvars (hsubset (List.mem_append_left _ hwas))) (hvars hu)

/-- The census of some leaves: how many atoms are among them, and what they use. -/
structure Represents (census : Census) (seen : List (Leaf K)) : Prop where
  next : census.next = seen.countP Sum.isLeft
  kinds : Tabulates census.kinds (Leaf.uses seen)

theorem represents_meet {leaf : Leaf K} {after : Census} (h : census.Represents seen)
    (hmeet : census.meet rule leaf = .ok after) : after.Represents (seen ++ [leaf]) := by
  obtain ⟨c, rfl, hc⟩ := isProper_of_meet hmeet
  have hreg : census.register rule c = .ok after := hmeet
  constructor
  · rw [register_eq hc] at hreg
    obtain ⟨table, -, hafter⟩ := Outcome.bind_eq_ok.mp hreg
    obtain rfl := Except.ok.inj hafter
    simp [h.next]
  · have htable := tabulates_register h.kinds hreg
    rwa [Leaf.uses, List.flatMap_append, List.flatMap_singleton]

/-- A leaf is met without an error exactly when it is not reported after those seen so far. -/
theorem meet_eq_error {leaf : Leaf K} {err : Error K} (h : census.Represents seen) :
    census.meet rule leaf = .error err ↔ ∃ flaw, Leaf.Offends seen leaf flaw ∧
      err = .definition ⟨rule, some (seen.countP Sum.isLeft)⟩ flaw := by
  rw [← h.next]
  constructor
  · intro herr
    cases leaf with
    | inr d => exact ⟨_, .node d, (Except.error.inj herr).symm⟩
    | inl c =>
      by_cases hc : c.IsProper
      · rw [meet, register_eq hc, Outcome.bind_ok_eq_error, Outcome.foldlM_eq_error] at herr
        obtain ⟨before, ⟨n, now⟩, after, table, huses, hbefore, herr⟩ := herr
        have hsubset : before ⊆ c.uses := by simp [huses]
        have htable : Tabulates table (Leaf.uses seen ++ before) :=
          Outcome.foldlM_induction
            (fun entered table => Tabulates table (Leaf.uses seen ++ entered)) hbefore
            (by rw [List.append_nil]; exact h.kinds) fun entered u b next hb hnext => by
              rw [← List.append_assoc]
              exact tabulates_registerVar hb hnext
        obtain ⟨was, hwas, hne, rfl⟩ := (registerVar_eq_error htable).mp herr
        refine ⟨_, .kind huses ?_ ?_ hne, rfl⟩
        · exact (exists_registerVars_iff _ h.kinds hsubset).mp ⟨table, hbefore, htable⟩
        · -- the variables before it are used with the kind that it is used with
          have hnow : (n, now) ∈ c.uses := by simp [huses]
          refine (List.mem_append.mp hwas).resolve_right fun hwas => hne ?_
          exact Clause.kind_eq_of_mem_uses (hsubset hwas) hnow
      · cases c with
        | foreign d => exact ⟨_, .clause d, (Except.error.inj herr).symm⟩
        | linear c => exact absurd trivial hc
        | membership c => exact absurd trivial hc
  · rintro ⟨flaw, hflaw, rfl⟩
    cases hflaw with
    | node d => rfl
    | clause d => rfl
    | @kind c before after n now was huses hbefore hwas hne =>
      have hsubset : before ⊆ c.uses := by simp [huses]
      have hc : c.IsProper := by
        cases c with
        | foreign d => simp [Clause.uses] at huses
        | linear c => exact trivial
        | membership c => exact trivial
      rw [meet, register_eq hc, Outcome.bind_ok_eq_error, Outcome.foldlM_eq_error]
      obtain ⟨table, htable, htabulates⟩ :=
        (exists_registerVars_iff ⟨rule, some census.next⟩ h.kinds hsubset).mpr hbefore
      exact ⟨before, (n, now), after, table, huses, htable,
        (registerVar_eq_error htabulates).mpr ⟨was, List.mem_append_left _ hwas, hne, rfl⟩⟩

/-! ### Meeting all leaves -/

theorem represents_foldlM {leaves : List (Leaf K)} {final : Census}
    (h : leaves.foldlM (meet rule) .start = .ok final) : final.Represents leaves :=
  Outcome.foldlM_induction (fun seen (census : Census) => census.Represents seen) h
    ⟨rfl, .empty⟩ fun _ _ _ _ hseen hnext => represents_meet hseen hnext

/-- Leaves can be met one after the other exactly when none is reported. -/
theorem exists_foldlM_iff (rule : Datum K) {leaves : List (Leaf K)} :
    (∃ census, leaves.foldlM (meet rule) .start = .ok census) ↔ Leaf.Unobjectionable leaves := by
  constructor
  · rintro ⟨census, hcensus⟩ before leaf after flaw rfl hflaw
    rw [List.foldlM_append] at hcensus
    obtain ⟨between, hbetween, hrest⟩ := Outcome.bind_eq_ok.mp hcensus
    rw [List.foldlM_cons, (meet_eq_error (represents_foldlM hbetween)).mpr ⟨flaw, hflaw, rfl⟩]
      at hrest
    cases hrest
  · intro h
    cases hmeet : leaves.foldlM (meet rule) .start with
    | ok census => exact ⟨census, rfl⟩
    | error err =>
      obtain ⟨before, leaf, after, census, hleaves, hbefore, herr⟩ :=
        Outcome.foldlM_eq_error.mp hmeet
      obtain ⟨flaw, hflaw, -⟩ := (meet_eq_error (represents_foldlM hbefore)).mp herr
      exact absurd hflaw (h before leaf after flaw hleaves)

end Census

namespace Expr

variable {e : Expr K} {rule : Datum K}

theorem meetLeaves_eq_error {err : Error K} :
    e.leaves.foldlM (Census.meet rule) .start = .error err ↔
      ∃ index flaw, e.FirstFlaw index flaw ∧ err = .definition ⟨rule, some index⟩ flaw := by
  rw [Outcome.foldlM_eq_error]
  constructor
  · rintro ⟨before, leaf, after, census, hleaves, hbefore, herr⟩
    obtain ⟨flaw, hflaw, rfl⟩ := (Census.meet_eq_error (Census.represents_foldlM hbefore)).mp herr
    have hclear := (Census.exists_foldlM_iff rule).mp ⟨census, hbefore⟩
    exact ⟨_, flaw, ⟨before, leaf, after, hleaves, hclear, hflaw, rfl⟩, rfl⟩
  · rintro ⟨_, flaw, ⟨before, leaf, after, hleaves, hclear, hflaw, rfl⟩, rfl⟩
    obtain ⟨census, hcensus⟩ := (Census.exists_foldlM_iff rule).mpr hclear
    exact ⟨before, leaf, after, census, hleaves, hcensus,
      (Census.meet_eq_error (Census.represents_foldlM hcensus)).mpr ⟨flaw, hflaw, rfl⟩⟩

/-- An expression has an unsupported node or clause, or uses a variable with both kinds. -/
def IsFlawed (e : Expr K) : Prop :=
  (∃ d, .inr d ∈ e.leaves) ∨ (∃ d, .inl (.foreign d) ∈ e.leaves) ∨
    ∃ n, (n, .numeric) ∈ e.uses ∧ (n, .categorical) ∈ e.uses

theorem isFlawed_of_offends {earlier later : List (Leaf K)} {leaf : Leaf K} {flaw : Flaw K}
    (hleaves : e.leaves = earlier ++ leaf :: later) (h : Leaf.Offends earlier leaf flaw) :
    e.IsFlawed := by
  have hleaf : leaf ∈ e.leaves := by simp [hleaves]
  cases h with
  | node d => exact .inl ⟨d, hleaf⟩
  | clause d => exact .inr (.inl ⟨d, hleaf⟩)
  | @kind c before after n now was huses hbefore hwas hne =>
    have hnow : (n, now) ∈ e.uses := List.mem_flatMap.mpr ⟨_, hleaf, by simp [huses]⟩
    have hwas : (n, was) ∈ e.uses := by
      rw [uses, hleaves, List.flatMap_append]
      exact List.mem_append_left _ hwas
    refine .inr (.inr ⟨n, ?_⟩)
    cases was <;> cases now
    · exact absurd rfl hne
    · exact ⟨hwas, hnow⟩
    · exact ⟨hnow, hwas⟩
    · exact absurd rfl hne

/-- An expression is flawed exactly when a leaf of it is reported. -/
theorem isFlawed_iff : e.IsFlawed ↔ ∃ index flaw, e.FirstFlaw index flaw := by
  constructor
  · intro h
    cases hmeet : e.leaves.foldlM (Census.meet .null) .start with
    | error err =>
      obtain ⟨index, flaw, hflaw, -⟩ := meetLeaves_eq_error.mp hmeet
      exact ⟨index, flaw, hflaw⟩
    | ok census =>
      have hproper : ∀ leaf ∈ e.leaves, ∃ c : Clause K, leaf = .inl c ∧ c.IsProper := by
        intro leaf hleaf
        obtain ⟨before, after, hone⟩ := Outcome.exists_of_foldlM_eq_ok hmeet hleaf
        exact Census.isProper_of_meet hone
      rcases h with ⟨d, hd⟩ | ⟨d, hd⟩ | ⟨n, hnumeric, hcategorical⟩
      · obtain ⟨c, ⟨⟩, -⟩ := hproper _ hd
      · obtain ⟨c, ⟨⟩, hc⟩ := hproper _ hd
        exact hc.elim
      · cases (Census.represents_foldlM hmeet).kinds.kind_unique hnumeric hcategorical
  · rintro ⟨index, flaw, earlier, leaf, later, hleaves, -, hflaw, -⟩
    exact isFlawed_of_offends hleaves hflaw

/-- **Flaws do not depend on polarity or folding.** When the numbers of an expression are finite, it
and its negation are normalised with the same error or both without one. The error is about the
first leaf that is no expression, no clause, or uses a variable with another kind than before, and
has the number of atoms that come before the leaf. There is one exactly when the expression has a
node or a clause that is not supported, or uses a variable with both kinds. -/
theorem flaws_reported {e : Expr K} (rule : Datum K)
    (hfinite : ∀ c, .inl (.linear c) ∈ e.leaves → (Clause.linear c).IsValid) :
    (∀ err, e.toDnf rule = .error err ↔ e.negate rule = .error err) ∧
    (∀ err, e.toDnf rule = .error err ↔
      ∃ index flaw, e.FirstFlaw index flaw ∧ err = .definition ⟨rule, some index⟩ flaw) ∧
    ((∃ err, e.toDnf rule = .error err) ↔ e.IsFlawed) := by
  have hnegates : ∀ c, .inl c ∈ e.leaves → c.IsProper → c.negate = .ok c.opposite := by
    intro c hc hproper
    cases c with
    | linear c => exact Clause.negate_linear (hfinite c hc).1 (hfinite c hc).2
    | membership c => rfl
    | foreign d => exact hproper.elim
  have hmeets : ∀ positive err, (e.normalize rule positive .start >>= fun r => .ok r.1) =
      .error err ↔ e.leaves.foldlM (Census.meet rule) .start = .error err := by
    intro positive err
    rw [normalize_of_negates e positive .start hnegates, Outcome.bind_ok_eq_error,
      Outcome.bind_ok_eq_error]
  have herror : ∀ err, e.toDnf rule = .error err ↔
      ∃ index flaw, e.FirstFlaw index flaw ∧ err = .definition ⟨rule, some index⟩ flaw :=
    fun err => (hmeets true err).trans meetLeaves_eq_error
  refine ⟨fun err => (hmeets true err).trans (hmeets false err).symm, herror, ?_⟩
  rw [isFlawed_iff]
  constructor
  · rintro ⟨err, herr⟩
    obtain ⟨index, flaw, hflaw, -⟩ := (herror err).mp herr
    exact ⟨index, flaw, hflaw⟩
  · rintro ⟨index, flaw, hflaw⟩
    exact ⟨_, (herror _).mpr ⟨index, flaw, hflaw, rfl⟩⟩

/-- A clash of kinds in a conjunction that is false whatever stands in it. -/
theorem flaws_reported_folded :
    let low : Clause Rat := .linear (.canonical [(⟨"x", by decide⟩, 1)] .le 3)
    let red : Clause Rat := .membership (.ofLabels ⟨"x", by decide⟩ ["red"] false)
    let e : Expr Rat :=
      .and [falsum, .ifThen (.atom low) (.not (.or [verum, .atom red])), .foreign (.int 5)]
    let clash : Flaw Rat := .kindClash .sameRule "x" .categorical .numeric
    (∀ c, .inl (.linear c) ∈ e.leaves → (Clause.linear c).IsValid) ∧ e.FirstFlaw 1 clash ∧
      e.IsFlawed ∧ e.toDnf (.text "r") = .error (.definition ⟨.text "r", some 1⟩ clash) ∧
      e.negate (.text "r") = .error (.definition ⟨.text "r", some 1⟩ clash) := by
  intro low red e clash
  have hleaves : e.leaves = [.inl low] ++ .inl red :: [.inr (.int 5)] := rfl
  have hfinite : ∀ c, .inl (.linear c) ∈ e.leaves → (Clause.linear c).IsValid :=
    fun c _ => ⟨fun _ _ => rfl, rfl⟩
  have hfirst : e.FirstFlaw 1 clash := by
    refine ⟨[.inl low], .inl red, _, hleaves, ?_, ?_, rfl⟩
    · have hmeet : (([.inl low] : List (Leaf Rat)).foldlM (Census.meet .null)
          Census.start).toOption.any (·.next = 1) = true := by decide +kernel
      obtain ⟨census, hcensus, -⟩ := Outcome.exists_of_any_toOption hmeet
      exact (Census.exists_foldlM_iff .null).mp ⟨census, hcensus⟩
    · have hred : red.uses = [] ++ ("x", .categorical) :: [] := rfl
      have hlow : ("x", .numeric) ∈ Leaf.uses [.inl low] := by decide +kernel
      exact .kind hred (List.forall_mem_nil _) hlow (by decide)
  obtain ⟨hpolarity, herror, hflawed⟩ := flaws_reported (.text "r") hfinite
  have hdnf : e.toDnf (.text "r") = .error (.definition ⟨.text "r", some 1⟩ clash) :=
    (herror _).mpr ⟨1, clash, hfirst, rfl⟩
  exact ⟨hfinite, hfirst, hflawed.mp ⟨_, hdnf⟩, hdnf, (hpolarity _).mp hdnf⟩

end Expr

end RuleAudit
