import RuleAudit.Proofs.Outcome
import RuleAudit.Proofs.RuleSet
import RuleAudit.Query.Simplify

/-!
# Rules that are alike

Queries see of a rule its name, its expression and its normal form, and not whether the normal form
came with it. So rules that agree in these have the same program and the same verdicts
(`Oracle.solve_of_alike`), and a round of simplification turns sets of such rules into sets of such
rules (`Oracle.mirrors_simplifyRound`). What else is known of the rules is carried along if it is
known of every rule that a round makes, so the round is followed for any relation of this sort
(`Rule.IsLikeness`).
-/

namespace RuleAudit

/-! ### Computations side by side -/

namespace Outcome

variable {ε α β γ δ : Type} {R : α → β → Prop} {S : γ → δ → Prop}

/-- Whatever the first computation gives, the second one gives something related to it. -/
def Mirrors (R : α → β → Prop) (x : Except ε α) (y : Except ε β) : Prop :=
  ∀ a, x = .ok a → ∃ b, y = .ok b ∧ R a b

theorem mirrors_ok {a : α} {b : β} (h : R a b) : Mirrors R (.ok a : Except ε α) (.ok b) := by
  rintro _ ⟨⟩
  exact ⟨b, rfl, h⟩

theorem mirrors_self {x : Except ε α} {R : α → α → Prop} (h : ∀ a, x = .ok a → R a a) :
    Mirrors R x x :=
  fun a ha => ⟨a, ha, h a ha⟩

theorem Mirrors.bind {x : Except ε α} {y : Except ε β} {f : α → Except ε γ} {g : β → Except ε δ}
    (h : Mirrors R x y) (hf : ∀ a b, R a b → Mirrors S (f a) (g b)) :
    Mirrors S (x >>= f) (y >>= g) := by
  intro c hc
  obtain ⟨a, ha, hc⟩ := bind_eq_ok.mp hc
  obtain ⟨b, hb, hab⟩ := h a ha
  rw [hb]
  exact hf a b hab c hc

/-- The same first step on both sides. -/
theorem mirrors_bind {x : Except ε α} {f : α → Except ε γ} {g : α → Except ε δ}
    (hf : ∀ a, x = .ok a → Mirrors S (f a) (g a)) : Mirrors S (x >>= f) (x >>= g) := by
  intro c hc
  obtain ⟨a, ha, hc⟩ := bind_eq_ok.mp hc
  rw [ha]
  exact hf a ha c hc

theorem mirrors_ite {x x' : Except ε α} {y y' : Except ε β} {c : Prop} [Decidable c]
    (hpos : Mirrors R x y) (hneg : Mirrors R x' y') :
    Mirrors R (if c then x else x') (if c then y else y') := by
  split
  · exact hpos
  · exact hneg

theorem mirrors_foldlM {f : α → γ → Except ε α} {g : β → γ → Except ε β} {a : α} {b : β}
    (l : List γ) (h : R a b) (hstep : ∀ a b c, R a b → Mirrors R (f a c) (g b c)) :
    Mirrors R (l.foldlM f a) (l.foldlM g b) := by
  induction l generalizing a b with
  | nil => exact mirrors_ok h
  | cons c l ih => exact (hstep a b c h).bind fun a b h => ih h

theorem mirrors_filterMapM {f : α → Except ε (Option γ)} {g : β → Except ε (Option δ)}
    {l : List α} {l' : List β} (h : List.Forall₂ R l l')
    (hf : ∀ a b, R a b → Mirrors (Option.Rel S) (f a) (g b)) :
    Mirrors (List.Forall₂ S) (l.filterMapM f) (l'.filterMapM g) := by
  suffices hs : ∀ kept kept', List.Forall₂ S kept kept' →
      Mirrors (List.Forall₂ S) (List.filterMapM.loop f l kept)
        (List.filterMapM.loop g l' kept') from hs [] [] .nil
  induction h with
  | nil => exact fun kept kept' hkept => mirrors_ok (List.rel_reverse hkept)
  | cons hab _ ih =>
    intro kept kept' hkept
    refine (hf _ _ hab).bind fun c d hcd => ?_
    cases hcd with
    | none => exact ih _ _ hkept
    | some hcd => exact ih _ _ (.cons hcd hkept)

section Congr

variable {l : List α} {l' : List β} (h : List.Forall₂ R l l')

include h

theorem anyM_congr {p : α → Except ε Bool} {q : β → Except ε Bool} (hp : ∀ a b, R a b → q b = p a) :
    l'.anyM q = l.anyM p := by
  induction h with
  | nil => rfl
  | cons hab _ ih => rw [List.anyM_cons, List.anyM_cons, hp _ _ hab, ih]

theorem allM_congr {p : α → Except ε Bool} {q : β → Except ε Bool} (hp : ∀ a b, R a b → q b = p a) :
    l'.allM q = l.allM p := by
  induction h with
  | nil => rfl
  | cons hab _ ih => rw [List.allM_cons, List.allM_cons, hp _ _ hab, ih]

theorem foldlM_congr {f : γ → α → Except ε γ} {g : γ → β → Except ε γ}
    (hf : ∀ a b, R a b → ∀ c, g c b = f c a) (c : γ) : l'.foldlM g c = l.foldlM f c := by
  induction h generalizing c with
  | nil => rfl
  | cons hab _ ih =>
    rw [List.foldlM_cons, List.foldlM_cons, hf _ _ hab]
    exact congrArg (f c _ >>= ·) (funext ih)

end Congr

end Outcome

open Outcome

variable {K : Type} [Scalar K]

/-! ### Rules -/

namespace Rule

variable {r q : Rule K}

/-- Rules with the same name, expression and normal form. -/
structure Alike (r q : Rule K) : Prop where
  name_eq : q.name = r.name
  expr_eq : q.expr = r.expr
  dnf_eq : q.dnf = r.dnf

namespace Alike

theorem refl (r : Rule K) : r.Alike r :=
  ⟨rfl, rfl, rfl⟩

variable (h : r.Alike q)

include h

theorem vars_eq : q.vars = r.vars := by
  rw [vars, vars, h.dnf_eq]

theorem isTautology_eq : q.isTautology = r.isTautology := by
  rw [isTautology, isTautology, h.dnf_eq]

theorem isContradiction_eq : q.isContradiction = r.isContradiction := by
  rw [isContradiction, isContradiction, h.dnf_eq]

theorem kinds_eq : q.kinds = r.kinds := by
  rw [kinds, kinds, h.dnf_eq, h.name_eq]

theorem pins_eq (var : String) : q.pins var = r.pins var := by
  rw [pins, pins, h.dnf_eq]

theorem opposite_eq : q.opposite = r.opposite := by
  rw [opposite, opposite, negation, negation, h.expr_eq, h.name_eq]

theorem bindingsFor_eq (values : Assignment K) :
    Oracle.bindingsFor q values = Oracle.bindingsFor r values := by
  rw [Oracle.bindingsFor, Oracle.bindingsFor, h.vars_eq, h.dnf_eq]

end Alike

/-- A relation between rules that are alike which every rule that is made has to itself. -/
structure IsLikeness (R : Rule K → Rule K → Prop) : Prop where
  alike {r q : Rule K} : R r q → r.Alike q
  ofDnf {name : String} {d : Dnf K} {r : Rule K} : ofDnf (.text name) d = .ok r → R r r
  pin {var : String} {value : Datum K} {kind : Option VarKind} {r : Rule K} :
    pin (.text var) value kind = .ok r → R r r

theorem isLikeness_alike : IsLikeness (Alike (K := K)) :=
  ⟨id, fun _ => .refl _, fun _ => .refl _⟩

theorem IsLikeness.mirrors_substitute {R : Rule K → Rule K → Prop} (hR : IsLikeness R)
    (h : R r q) (values : Assignment K) (tol : K) :
    Mirrors R (r.substitute values tol) (q.substitute values tol) := by
  rw [substitute, substitute, (hR.alike h).vars_eq, (hR.alike h).dnf_eq, (hR.alike h).name_eq]
  refine mirrors_bind fun vars _ => mirrors_ite ?_ (mirrors_ok h)
  exact mirrors_bind fun d _ => mirrors_bind fun d' _ => mirrors_self fun _ => hR.ofDnf

end Rule

/-! ### Lists of rules -/

section Lists

variable {rules rules' others others' : List (Rule K)} (h : List.Forall₂ Rule.Alike rules rules')

include h

theorem map_name_of_alike : rules'.map (·.name) = rules.map (·.name) := by
  induction h with
  | nil => rfl
  | cons hr _ ih => rw [List.map_cons, List.map_cons, hr.name_eq, ih]

theorem Program.encodings_of_alike (vocabulary : Vocabulary K) (settings : Settings K)
    (position : Nat) : encodings vocabulary settings position rules' =
      encodings vocabulary settings position rules := by
  induction h generalizing position with
  | nil => rfl
  | cons hr _ ih => rw [encodings, encodings, hr.name_eq, hr.dnf_eq, ih]

theorem Program.ofRules_of_alike (settings : Settings K) :
    ofRules rules' settings = ofRules rules settings := by
  have husage : Usage.ofRules rules' = Usage.ofRules rules :=
    foldlM_congr h (fun r q hr u => by
      rw [Usage.add, Usage.add, hr.name_eq, hr.dnf_eq, hr.kinds_eq]) _
  rw [ofRules, ofRules, husage]
  simp only [encodings_of_alike h]

variable (o : Oracle K)

/-- Alike rules have the same verdicts. -/
theorem Oracle.solve_of_alike (context : String) :
    o.solve rules' context = o.solve rules context := by
  rw [solve, solve, allM_congr h fun _ _ => Rule.Alike.isTautology_eq,
    anyM_congr h fun _ _ => Rule.Alike.isContradiction_eq, Program.ofRules_of_alike h]

theorem Oracle.feasible_of_alike (context : String) :
    o.feasible rules' context = o.feasible rules context := by
  rw [feasible, feasible, solve_of_alike h]

end Lists

theorem forall₂_alike_append {rules rules' : List (Rule K)}
    (h : List.Forall₂ Rule.Alike rules rules') (more : List (Rule K)) :
    List.Forall₂ Rule.Alike (rules ++ more) (rules' ++ more) :=
  List.rel_append h (List.forall₂_same.mpr fun r _ => .refl r)

/-! ### Rule sets -/

namespace RuleSet

variable {R : Rule K → Rule K → Prop} {rules rules' : List (Rule K)} {s t : RuleSet K}

/-- Sets of related rules, in the same order. -/
def Related (R : Rule K → Rule K → Prop) (s t : RuleSet K) : Prop :=
  List.Forall₂ R s.rules t.rules

theorem rel_find? (hR : Rule.IsLikeness R) (test : String → Bool)
    (h : List.Forall₂ R rules rules') :
    Option.Rel R (rules.find? fun r => test r.name) (rules'.find? fun r => test r.name) := by
  induction h with
  | nil => exact .none
  | @cons r q _ _ hr _ ih =>
    rw [List.find?_cons, List.find?_cons, (hR.alike hr).name_eq]
    cases test r.name with
    | true => exact .some hr
    | false => exact ih

theorem mirrors_ofList (hR : Rule.IsLikeness R) (h : List.Forall₂ R rules rules') :
    Mirrors (Related R) (ofList rules) (ofList rules') := by
  have hnames := map_name_of_alike (h.imp fun _ _ => hR.alike)
  intro s hs
  obtain rfl := rules_of_ofList hs
  exact ⟨⟨rules', hnames ▸ s.distinct⟩, dif_pos _, h⟩

variable (hR : Rule.IsLikeness R) (h : s.Related R t)

include hR h

theorem Related.alike : List.Forall₂ Rule.Alike s.rules t.rules :=
  h.imp fun _ _ => hR.alike

theorem Related.names_eq : t.names = s.names :=
  map_name_of_alike (h.alike hR)

theorem Related.kinds_eq : t.kinds = s.kinds :=
  foldlM_congr (h.alike hR) (fun r q hr c => by rw [hr.name_eq, hr.kinds_eq]) _

theorem Related.mirrors_item (name : String) : Mirrors R (s.item name) (t.item name) := by
  have hfind : Option.Rel R (s.find? name) (t.find? name) :=
    rel_find? hR (fun name' => name' == name) h
  rw [item, item]
  generalize s.find? name = found, t.find? name = found' at hfind
  cases hfind with
  | none => rintro _ ⟨⟩
  | some hr => exact mirrors_ok hr

theorem Related.mirrors_replace {r : Rule K} (hr : R r r) :
    Mirrors (Related R) (s.replace r) (t.replace r) := by
  have hrules : List.Forall₂ R (s.rules.map fun x => if x.name == r.name then r else x)
      (t.rules.map fun x => if x.name == r.name then r else x) := by
    refine List.rel_map (fun x y hxy => ?_) h
    rw [(hR.alike hxy).name_eq]
    split
    · exact hr
    · exact hxy
  rw [replace, replace, contains, contains, h.names_eq hR]
  exact mirrors_ite (mirrors_ofList hR hrules) (by rintro _ ⟨⟩)

theorem Related.filter_name (test : String → Bool) :
    List.Forall₂ R (s.rules.filter fun r => test r.name) (t.rules.filter fun r => test r.name) :=
  List.rel_filter (fun r q hr => by
    change test r.name = true ↔ test q.name = true
    rw [(hR.alike hr).name_eq]) h

end RuleSet

/-! ### Queries -/

namespace Oracle

variable {R : Rule K → Rule K → Prop} {s t : RuleSet K} {r q : Rule K} (o : Oracle K)
  (hR : Rule.IsLikeness R)

theorem isRedundant_of_alike {others others' : List (Rule K)}
    (h : List.Forall₂ Rule.Alike others others') (hr : r.Alike q) :
    o.isRedundant others' q = o.isRedundant others r := by
  rw [isRedundant, isRedundant, hr.isTautology_eq, hr.opposite_eq, hr.name_eq]
  simp only [o.feasible_of_alike (forall₂_alike_append h _)]

theorem excludesAll_of_alike (h : List.Forall₂ Rule.Alike s.rules t.rules) (context : String)
    (rules : List (Rule K)) : o.excludesAll t context rules = o.excludesAll s context rules := by
  simp only [excludesAll, o.feasible_of_alike (forall₂_alike_append h _)]

theorem livingTerms_of_alike {others others' : List (Rule K)}
    (h : List.Forall₂ Rule.Alike others others') (name : String) (d : Dnf K) :
    o.livingTerms others' name d = o.livingTerms others name d := by
  simp only [livingTerms, o.feasible_of_alike (forall₂_alike_append h _)]

include hR

theorem fixed_of_related (h : s.Related R t) : o.fixed t = o.fixed s := by
  simp only [fixed, check, o.solve_of_alike (h.alike hR), h.kinds_eq hR, fixedValue?,
    o.excludesAll_of_alike (h.alike hR)]

theorem isFeasible_of_related (h : s.Related R t) : o.isFeasible t = o.isFeasible s := by
  rw [isFeasible, isFeasible, check, check, o.solve_of_alike (h.alike hR)]

/-! ### A round of simplification -/

theorem mirrors_prune {kept kept' rules rules' : List (Rule K)} (hkept : List.Forall₂ R kept kept')
    (h : List.Forall₂ R rules rules') :
    Mirrors (List.Forall₂ R) (o.prune kept rules) (o.prune kept' rules') := by
  induction h generalizing kept kept' with
  | nil => exact mirrors_ok hkept
  | @cons r q rules rules' hr hrules ih =>
    have hothers := (List.rel_append hkept hrules).imp fun _ _ => hR.alike
    rw [prune, prune, o.isRedundant_of_alike hothers (hR.alike hr)]
    refine mirrors_bind fun redundant _ => mirrors_ite (ih hkept) ?_
    exact ih (List.rel_append hkept (.cons hr .nil))

theorem mirrors_removeRedundancy (h : s.Related R t) :
    Mirrors (RuleSet.Related R) (o.removeRedundancy s).outcome (o.removeRedundancy t).outcome := by
  rw [removeRedundancy, removeRedundancy, o.isFeasible_of_related hR h, Reported.outcome_bind,
    Reported.outcome_bind]
  refine mirrors_bind fun feasible _ => ?_
  cases feasible with
  | false => exact mirrors_ok h
  | true => exact (o.mirrors_prune hR .nil h).bind fun _ _ => RuleSet.mirrors_ofList hR

theorem mirrors_dropTerms (h : s.Related R t) (name : String) :
    Mirrors (RuleSet.Related R) (o.dropTerms s name) (o.dropTerms t name) := by
  rw [dropTerms, dropTerms]
  refine (h.mirrors_item hR name).bind fun r q hr => ?_
  have hothers := (h.filter_name hR (· != name)).imp fun _ _ => hR.alike
  rw [(hR.alike hr).dnf_eq]
  refine mirrors_bind fun d _ => mirrors_ite (mirrors_ok h) ?_
  rw [o.livingTerms_of_alike hothers]
  refine mirrors_bind fun kept _ => mirrors_ite ?_ (mirrors_ok h)
  exact mirrors_bind fun r' hr' => h.mirrors_replace hR (hR.ofDnf hr')

theorem mirrors_simplifyConditional (h : s.Related R t) :
    Mirrors (RuleSet.Related R) (o.simplifyConditional s).outcome
      (o.simplifyConditional t).outcome := by
  rw [simplifyConditional, simplifyConditional, o.isFeasible_of_related hR h,
    Reported.outcome_bind, Reported.outcome_bind, h.names_eq hR]
  refine mirrors_bind fun feasible _ => ?_
  cases feasible with
  | false => exact mirrors_ok h
  | true => exact mirrors_foldlM _ h fun _ _ name h => o.mirrors_dropTerms hR h name

theorem mirrors_substituteFixed (values : Assignment K) (h : R r q) :
    Mirrors (Option.Rel R) (substituteFixed values r) (substituteFixed values q) := by
  have hdone : ∀ r q : Rule K, R r q → Mirrors (Option.Rel R)
      (do return if ← r.isTautology then none else some r)
      (do return if ← q.isTautology then none else some q : Except (Error K) _) := by
    intro r q h
    rw [(hR.alike h).isTautology_eq]
    refine mirrors_bind fun always _ => mirrors_ok ?_
    split
    · exact .none
    · exact .some h
  rw [substituteFixed, substituteFixed, (hR.alike h).bindingsFor_eq]
  refine mirrors_bind fun bindings _ => mirrors_ite (hdone r q h) ?_
  exact (hR.mirrors_substitute h bindings _).bind hdone

theorem mirrors_simplifyFixed (h : s.Related R t) :
    Mirrors (RuleSet.Related R) (o.simplifyFixed s).outcome (o.simplifyFixed t).outcome := by
  rw [simplifyFixed, simplifyFixed, o.fixed_of_related hR h, Reported.outcome_bind,
    Reported.outcome_bind]
  refine mirrors_bind fun fixed _ => ?_
  have htargets : ∀ target, (t.rules.anyM fun r => return !(← bindingsFor r [target]).isEmpty) =
      s.rules.anyM fun r => return !(← bindingsFor r [target]).isEmpty := fun target =>
    anyM_congr (h.alike hR) fun _ _ hr => by rw [hr.bindingsFor_eq]
  dsimp only [Reported.outcome_lift]
  simp only [htargets, h.kinds_eq hR]
  refine mirrors_bind fun targets _ => mirrors_ite (mirrors_ok h) ?_
  refine mirrors_bind fun kinds _ => ?_
  refine (mirrors_filterMapM h fun r q => mirrors_substituteFixed hR targets).bind
    fun rules rules' hrules => ?_
  have hpinned : ∀ var, rules'.anyM (·.pins var) = rules.anyM (·.pins var) := fun var =>
    anyM_congr hrules fun _ _ hr => (hR.alike hr).pins_eq var
  simp only [hpinned]
  -- the pins are made from the same values
  refine Mirrors.bind (R := List.Forall₂ R) ?_ fun pins pins' hpins =>
    RuleSet.mirrors_ofList hR (List.rel_append hrules hpins)
  refine mirrors_filterMapM (List.forall₂_same.mpr fun _ _ => rfl) ?_
  rintro target _ rfl
  refine mirrors_bind fun pinned _ => mirrors_ite (mirrors_ok .none) ?_
  exact mirrors_bind fun pin hpin => mirrors_ok (.some (hR.pin hpin))

/-- A round does the same to alike rules. -/
theorem mirrors_simplifyRound (h : s.Related R t) :
    Mirrors (RuleSet.Related R) (o.simplifyRound s).outcome (o.simplifyRound t).outcome := by
  rw [simplifyRound, simplifyRound, Reported.outcome_bind, Reported.outcome_bind]
  refine (o.mirrors_simplifyFixed hR h).bind fun s t h => ?_
  rw [Reported.outcome_bind, Reported.outcome_bind]
  exact (o.mirrors_simplifyConditional hR h).bind fun _ _ => o.mirrors_removeRedundancy hR

end Oracle

end RuleAudit
