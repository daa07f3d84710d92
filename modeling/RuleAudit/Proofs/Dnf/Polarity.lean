import RuleAudit.Proofs.Dnf.Normalize

/-!
# Both polarities of a normal form

The normal forms of an expression and of its negation are made of the same material: when the
clauses of one have a property that opposites of clauses share, so have those of the other
(`Expr.within_form_iff`). A variable that one of them has lost, the other has lost too. This needs
to be shown along with what happens to the markers, since a part that is always false takes the
clauses of the other parts with it in a conjunction, and one that is always true in a disjunction.
-/

namespace RuleAudit

/-! ### Repetitions -/

section Repetitions

variable {α : Type} [BEq α]

theorem eraseDups_eq_nil {l : List α} : l.eraseDups = [] ↔ l = [] := by
  cases l with
  | nil => exact Iff.rfl
  | cons a l => rw [List.eraseDups_cons]; simp

end Repetitions

section Forms

variable {K : Type} [Scalar K]

private theorem nil_mem_eraseDups {l : List (Term K)} : [] ∈ l.eraseDups ↔ [] ∈ l := by
  have hany := any_eraseDups (f := fun term : Term K => term.isEmpty) (fun s t hst => by
    cases s <;> cases t <;> first | rfl | cases hst) l
  rw [Bool.eq_iff_iff, List.any_eq_true, List.any_eq_true] at hany
  simpa only [List.isEmpty_iff, exists_eq_right] using hany

namespace Dnf

variable {d e : Dnf K} {P : Clause K → Prop}

/-! ### Reducing open forms -/

theorem IsReduced.eq_verum_iff (h : d.IsReduced) : d = verum ↔ [] ∈ d := by
  constructor
  · rintro rfl
    exact List.mem_singleton_self _
  · intro hnil
    exact h.eq_verum_or.resolve_right fun hne => hne [] hnil rfl

private theorem any_isEmpty_iff : d.any (·.isEmpty) = true ↔ [] ∈ d := by
  simp only [List.any_eq_true, List.isEmpty_iff, exists_eq_right]

/-- Reducing an open form drops repetitions, unless a term is true. -/
private theorem IsOpen.reduce_eq (h : d.IsOpen) : d.reduce =
    if d.any (·.isEmpty) then verum else (d.map (·.eraseDups)).eraseDups := by
  rw [reduce, h.filterMap_reduceTerm]

private theorem IsOpen.reduce_eq_falsum_iff (h : d.IsOpen) : d.reduce = falsum ↔ d = [] := by
  rw [h.reduce_eq]
  split
  · next hnil =>
    exact iff_of_false (List.cons_ne_nil _ _) (List.ne_nil_of_mem (any_isEmpty_iff.mp hnil))
  · exact eraseDups_eq_nil.trans List.map_eq_nil_iff

private theorem IsOpen.reduce_eq_verum_iff (h : d.IsOpen) : d.reduce = verum ↔ [] ∈ d := by
  have hreduced : d.reduce.IsReduced := ⟨d, rfl⟩
  rw [hreduced.eq_verum_iff, h.reduce_eq]
  split
  · next hnil => exact iff_of_true (List.mem_singleton_self _) (any_isEmpty_iff.mp hnil)
  · rw [nil_mem_eraseDups, List.mem_map]
    exact ⟨fun ⟨t, ht, hnil⟩ => eraseDups_eq_nil.mp hnil ▸ ht, fun hnil => ⟨[], hnil, rfl⟩⟩

private theorem within_eraseDups_iff (hP : ∀ c d, (c == d) = true → (P c ↔ P d)) :
    Within d.eraseDups P ↔ d.Within P :=
  forall_mem_eraseDups (forall_mem_congr hP) d

private theorem IsOpen.within_reduce_iff (h : d.IsOpen)
    (hP : ∀ c d, (c == d) = true → (P c ↔ P d)) (hnil : [] ∉ d) :
    d.reduce.Within P ↔ d.Within P := by
  rw [h.reduce_eq, if_neg (mt any_isEmpty_iff.mp hnil), within_eraseDups_iff hP, Within,
    List.forall_mem_map]
  exact forall₂_congr fun term _ => forall_mem_eraseDups hP term

/-! ### Distribution -/

private theorem cross_eq_nil_iff : cross d e = [] ↔ d = [] ∨ e = [] := by
  rw [cross, eraseDups_eq_nil, List.flatMap_eq_nil_iff]
  constructor
  · intro h
    by_contra hne
    obtain ⟨hd, he⟩ := not_or.mp hne
    obtain ⟨s, hs⟩ := List.exists_mem_of_ne_nil d hd
    exact he (List.map_eq_nil_iff.mp (h s hs))
  · rintro (rfl | rfl)
    · exact fun s hs => by cases hs
    · exact fun s _ => rfl

private theorem nil_mem_cross_iff : [] ∈ cross d e ↔ [] ∈ d ∧ [] ∈ e := by
  rw [cross, nil_mem_eraseDups]
  simp only [List.mem_flatMap, List.mem_map, eraseDups_eq_nil, List.append_eq_nil_iff]
  constructor
  · rintro ⟨s, hs, t, ht, rfl, rfl⟩
    exact ⟨hs, ht⟩
  · rintro ⟨hd, he⟩
    exact ⟨[], hd, [], he, rfl, rfl⟩

/-- Distribution loses no clause, unless one side has no term. -/
private theorem within_cross_iff (hP : ∀ c d, (c == d) = true → (P c ↔ P d)) (hd : d ≠ [])
    (he : e ≠ []) : (cross d e).Within P ↔ d.Within P ∧ e.Within P := by
  refine ⟨fun h => ?_, fun h => h.1.cross h.2⟩
  rw [cross, within_eraseDups_iff hP] at h
  have hpair : ∀ s ∈ d, ∀ t ∈ e, ∀ c ∈ s ++ t, P c := fun s hs t ht =>
    (forall_mem_eraseDups hP _).mp (h _ (List.mem_flatMap.mpr
      ⟨s, hs, List.mem_map_of_mem (f := fun b => (s ++ b).eraseDups) ht⟩))
  obtain ⟨s, hs⟩ := List.exists_mem_of_ne_nil d hd
  obtain ⟨t, ht⟩ := List.exists_mem_of_ne_nil e he
  exact ⟨fun s hs c hc => hpair s hs t ht c (List.mem_append_left _ hc),
    fun t ht c hc => hpair s hs t ht c (List.mem_append_right _ hc)⟩

section Fold

variable {parts : List (Dnf K)} {start : Dnf K}

private theorem foldl_cross_eq_nil_iff :
    parts.foldl cross start = [] ↔ start = [] ∨ ∃ d ∈ parts, d = [] := by
  induction parts generalizing start with
  | nil => simp
  | cons d parts ih =>
    rw [List.foldl_cons, ih, cross_eq_nil_iff, or_assoc, List.exists_mem_cons_iff]

private theorem nil_mem_foldl_cross_iff :
    [] ∈ parts.foldl cross start ↔ [] ∈ start ∧ ∀ d ∈ parts, [] ∈ d := by
  induction parts generalizing start with
  | nil => simp
  | cons d parts ih =>
    rw [List.foldl_cons, ih, nil_mem_cross_iff, and_assoc, List.forall_mem_cons]

private theorem within_foldl_cross_iff (hP : ∀ c d, (c == d) = true → (P c ↔ P d))
    (hstart : start ≠ []) (hparts : ∀ d ∈ parts, d ≠ []) :
    (parts.foldl cross start).Within P ↔ start.Within P ∧ ∀ d ∈ parts, d.Within P := by
  induction parts generalizing start with
  | nil => simp
  | cons d parts ih =>
    obtain ⟨hd, hparts⟩ := List.forall_mem_cons.mp hparts
    have hcross : cross start d ≠ [] := fun h =>
      (cross_eq_nil_iff.mp h).elim hstart hd
    rw [List.foldl_cons, ih hcross hparts, within_cross_iff hP hstart hd, and_assoc,
      List.forall_mem_cons]

end Fold

/-! ### Markers and clauses of compound forms -/

theorem within_verum : (verum : Dnf K).Within P := by
  intro term hterm c hc
  obtain rfl := List.mem_singleton.mp hterm
  cases hc

theorem within_falsum : (falsum : Dnf K).Within P :=
  fun _ hterm => by cases hterm

section Parts

variable {parts : List (Dnf K)} (h : ∀ d ∈ parts, d.IsReduced)

include h

theorem isOpen_foldl_cross : (parts.foldl cross verum).IsOpen := by
  suffices hs : ∀ start : Dnf K, start.IsOpen → (parts.foldl cross start).IsOpen from
    hs verum within_verum
  induction parts with
  | nil => exact fun start hstart => hstart
  | cons d parts ih =>
    obtain ⟨hd, hparts⟩ := List.forall_mem_cons.mp h
    exact fun start hstart => ih hparts _ (hstart.cross hd.isOpen)

theorem isOpen_flatten : IsOpen parts.flatten := by
  intro term hterm
  obtain ⟨d, hd, hterm⟩ := List.mem_flatten.mp hterm
  exact (h d hd).isOpen term hterm

private theorem nil_mem_flatten_iff : [] ∈ parts.flatten ↔ ∃ d ∈ parts, d = verum := by
  rw [List.mem_flatten]
  exact exists_congr fun d => and_congr_right fun hd => (h d hd).eq_verum_iff.symm

/-- A conjunction is always false when a part is. -/
theorem conj_eq_falsum_iff : conj parts = falsum ↔ ∃ d ∈ parts, d = falsum := by
  rw [conj, (isOpen_foldl_cross h).reduce_eq_falsum_iff, foldl_cross_eq_nil_iff]
  exact or_iff_right (List.ne_nil_of_mem nil_mem_verum)

/-- A conjunction is always true when all parts are. -/
theorem conj_eq_verum_iff : conj parts = verum ↔ ∀ d ∈ parts, d = verum := by
  rw [conj, (isOpen_foldl_cross h).reduce_eq_verum_iff, nil_mem_foldl_cross_iff,
    and_iff_right nil_mem_verum]
  exact forall₂_congr fun d hd => (h d hd).eq_verum_iff.symm

/-- A disjunction is always false when all parts are. -/
theorem disj_eq_falsum_iff : disj parts = falsum ↔ ∀ d ∈ parts, d = falsum := by
  rw [disj, (isOpen_flatten h).reduce_eq_falsum_iff, List.flatten_eq_nil_iff]
  rfl

/-- A disjunction is always true when a part is. -/
theorem disj_eq_verum_iff : disj parts = verum ↔ ∃ d ∈ parts, d = verum := by
  rw [disj, (isOpen_flatten h).reduce_eq_verum_iff, nil_mem_flatten_iff h]

variable (hP : ∀ c d, (c == d) = true → (P c ↔ P d))

include hP

/-- Unless a part is always false, a conjunction has the clauses of all parts. -/
theorem within_conj_iff (hne : ¬ ∃ d ∈ parts, d = falsum) :
    (conj parts).Within P ↔ ∀ d ∈ parts, d.Within P := by
  by_cases hverum : conj parts = verum
  · rw [hverum]
    refine iff_of_true within_verum fun d hd => ?_
    rw [(conj_eq_verum_iff h).mp hverum d hd]
    exact within_verum
  · have hnil : [] ∉ parts.foldl cross verum :=
      mt (isOpen_foldl_cross h).reduce_eq_verum_iff.mpr hverum
    have hparts : ∀ d ∈ parts, d ≠ [] := fun d hd hfalse => hne ⟨d, hd, hfalse⟩
    rw [conj, (isOpen_foldl_cross h).within_reduce_iff hP hnil,
      within_foldl_cross_iff hP (List.ne_nil_of_mem nil_mem_verum) hparts]
    exact and_iff_right within_verum

/-- Unless a part is always true, a disjunction has the clauses of all parts. -/
theorem within_disj_iff (hne : ¬ ∃ d ∈ parts, d = verum) :
    (disj parts).Within P ↔ ∀ d ∈ parts, d.Within P := by
  rw [disj, (isOpen_flatten h).within_reduce_iff hP (mt (nil_mem_flatten_iff h).mp hne)]
  simp only [Within, List.mem_flatten, forall_exists_index, and_imp]
  exact ⟨fun hall d hd term hterm => hall term d hd hterm,
    fun hall term d hd hterm => hall d hd term hterm⟩

end Parts

/-! ### Opposed forms -/

/-- Reduced forms of which one is always true when the other is always false, and which have the
same material otherwise. -/
structure Opposed (P : Clause K → Prop) (d e : Dnf K) : Prop where
  left : d.IsReduced
  right : e.IsReduced
  never : d = falsum ↔ e = verum
  always : d = verum ↔ e = falsum
  within : d.Within P ↔ e.Within P

namespace Opposed

theorem symm (h : Opposed P d e) : Opposed P e d :=
  ⟨h.right, h.left, h.always.symm, h.never.symm, h.within.symm⟩

theorem verum_falsum : Opposed P (verum : Dnf K) falsum where
  left := ⟨verum, rfl⟩
  right := ⟨falsum, rfl⟩
  never := iff_of_false (List.cons_ne_nil _ _) (List.cons_ne_nil _ _).symm
  always := iff_of_true rfl rfl
  within := iff_of_true within_verum within_falsum

section Parts

variable {ds es : List (Dnf K)}

/-- What holds of some part holds of an opposed part, if it is said of either. -/
private theorem exists_iff {Q R : Dnf K → Prop} (h : List.Forall₂ (Opposed P) ds es)
    (hQR : ∀ d e, Opposed P d e → (Q d ↔ R e)) : (∃ d ∈ ds, Q d) ↔ ∃ e ∈ es, R e := by
  induction h with
  | nil => simp
  | cons hde _ ih => rw [List.exists_mem_cons_iff, List.exists_mem_cons_iff, hQR _ _ hde, ih]

private theorem forall_iff {Q R : Dnf K → Prop} (h : List.Forall₂ (Opposed P) ds es)
    (hQR : ∀ d e, Opposed P d e → (Q d ↔ R e)) : (∀ d ∈ ds, Q d) ↔ ∀ e ∈ es, R e := by
  induction h with
  | nil => simp
  | cons hde _ ih => rw [List.forall_mem_cons, List.forall_mem_cons, hQR _ _ hde, ih]

/-- The conjunction of some forms is opposed to the disjunction of opposed ones. -/
theorem conj_disj (hP : ∀ c d, (c == d) = true → (P c ↔ P d))
    (h : List.Forall₂ (Opposed P) ds es) : Opposed P (conj ds) (disj es) := by
  have hleft : ∀ d ∈ ds, d.IsReduced :=
    (forall_iff h fun _ _ hde => iff_true_intro hde.left).mpr fun _ _ => trivial
  have hright : ∀ e ∈ es, e.IsReduced :=
    (forall_iff h fun _ _ hde => (iff_true_intro hde.right).symm).mp fun _ _ => trivial
  have hmarkers : (∃ d ∈ ds, d = falsum) ↔ ∃ e ∈ es, e = verum :=
    exists_iff h fun _ _ hde => hde.never
  have hnever : conj ds = falsum ↔ disj es = verum := by
    rw [conj_eq_falsum_iff hleft, disj_eq_verum_iff hright, hmarkers]
  refine ⟨⟨_, rfl⟩, ⟨_, rfl⟩, hnever, ?_, ?_⟩
  · rw [conj_eq_verum_iff hleft, disj_eq_falsum_iff hright]
    exact forall_iff h fun _ _ hde => hde.always
  · by_cases hmarker : ∃ d ∈ ds, d = falsum
    · -- one part decides both sides, and neither has a clause left
      have hfalsum : conj ds = falsum := (conj_eq_falsum_iff hleft).mpr hmarker
      rw [hnever.mp hfalsum, hfalsum]
      exact verum_falsum.symm.within
    · rw [within_conj_iff hleft hP hmarker, within_disj_iff hright hP (mt hmarkers.mpr hmarker)]
      exact forall_iff h fun _ _ hde => hde.within

end Parts

end Opposed

/-! ### Clauses and their opposites -/

/-- When every clause is constant, nothing but a marker is left. -/
theorem reduce_eq_verum_or_falsum (h : d.Within fun c => c.constant? ≠ none) :
    d.reduce = verum ∨ d.reduce = falsum := by
  have hreduced : d.reduce.IsReduced := ⟨d, rfl⟩
  refine hreduced.eq_verum_or.imp_right fun hne => ?_
  refine List.eq_nil_iff_forall_not_mem.mpr fun term hterm => ?_
  obtain ⟨c, hc⟩ := List.exists_mem_of_ne_nil term (hne term hterm)
  exact h.reduce term hterm c hc (hreduced.isOpen term hterm c hc)

end Dnf

end Forms

namespace Clause

/-- A property that equal clauses share, and that a clause shares with its opposite. -/
structure Unsigned (P : Clause Rat → Prop) : Prop where
  congr : ∀ c d, (c == d) = true → (P c ↔ P d)
  opposite : ∀ c : Clause Rat, c.IsProper → (P c ↔ c.opposite.Within P)

variable {c : Clause Rat} {P : Clause Rat → Prop}

/-- The opposite of a clause is constant when the clause is. -/
theorem within_opposite_constant? (c : Clause Rat) :
    c.opposite.Within fun o => o.constant? = none ↔ c.constant? = none := by
  intro term hterm o ho
  cases c with
  | linear c =>
    obtain ⟨r, -, rfl⟩ := List.mem_map.mp hterm
    obtain rfl := List.mem_singleton.mp ho
    rw [constant?, constant?, c.terms_restrict]
    split <;> simp
  | membership c =>
    obtain rfl := List.mem_singleton.mp hterm
    obtain rfl := List.mem_singleton.mp ho
    rw [constant?, constant?, MembershipClause.negate]
    dsimp only
    split <;> simp
  | foreign d => cases hterm

/-- The opposite of a clause has terms, and all of them have clauses. -/
theorem opposite_ne_nil (hc : c.IsProper) : c.opposite ≠ [] ∧ [] ∉ c.opposite := by
  cases c with
  | linear c =>
    constructor
    · rw [opposite, Ne, List.map_eq_nil_iff]
      cases c.relation <;> exact List.cons_ne_nil _ _
    · rw [opposite, List.mem_map]
      rintro ⟨r, -, hr⟩
      exact List.cons_ne_nil _ _ hr
  | membership c => exact ⟨List.cons_ne_nil _ _, by simp [opposite]⟩
  | foreign d => cases hc

/-- The reduced form of a clause is opposed to that of its opposite. -/
theorem opposed_opposite (hP : Unsigned P) (hc : c.IsProper) :
    Dnf.Opposed P (Dnf.reduce [[c]]) c.opposite.reduce := by
  have hsingle (Q : Clause Rat → Prop) : Dnf.Within [[c]] Q ↔ Q c := by
    simp [Dnf.Within]
  by_cases hconst : c.constant? = none
  · have hopen : Dnf.IsOpen [[c]] := (hsingle _).mpr hconst
    have hopen' : c.opposite.IsOpen := fun term hterm o ho =>
      (within_opposite_constant? c term hterm o ho).mpr hconst
    obtain ⟨hne, hnil⟩ := opposite_ne_nil hc
    have hnil' : [] ∉ [[c]] := by simp
    refine ⟨⟨_, rfl⟩, ⟨_, rfl⟩, ?_, ?_, ?_⟩
    · rw [hopen.reduce_eq_falsum_iff, hopen'.reduce_eq_verum_iff]
      exact iff_of_false (List.cons_ne_nil _ _) hnil
    · rw [hopen.reduce_eq_verum_iff, hopen'.reduce_eq_falsum_iff]
      exact iff_of_false hnil' hne
    · rw [hopen.within_reduce_iff hP.congr hnil', hopen'.within_reduce_iff hP.congr hnil,
        hsingle, hP.opposite c hc]
  · -- both sides are markers, and different ones since they differ in truth
    have hleft := Dnf.reduce_eq_verum_or_falsum (d := [[c]]) ((hsingle _).mpr hconst)
    have hright := Dnf.reduce_eq_verum_or_falsum (d := c.opposite) fun term hterm o ho =>
      mt (within_opposite_constant? c term hterm o ho).mp hconst
    let v : Valuation := ⟨fun _ => 0, fun _ => none⟩
    have hdiffer : Dnf.eval .exact v c.opposite.reduce = !Dnf.eval .exact v (Dnf.reduce [[c]]) := by
      rw [Dnf.eval_reduce (Comparison.exact_decides v _), eval_opposite hc,
        Dnf.eval_reduce (Comparison.exact_decides v _)]
      simp [Dnf.eval]
    rcases hleft with hl | hl <;> rcases hright with hr | hr <;> rw [hl, hr] at hdiffer ⊢
    · cases hdiffer
    · exact .verum_falsum
    · exact Dnf.Opposed.verum_falsum.symm
    · cases hdiffer

end Clause

/-! ### Expressions -/

namespace Expr

variable {P : Clause Rat → Prop}

mutual
/-- The normal forms of an expression and of its negation are opposed. -/
theorem form_opposed (hP : Clause.Unsigned P) : ∀ (e : Expr Rat) (positive : Bool), e.IsProper →
    Dnf.Opposed P (e.form positive) (e.form (!positive))
  | atom c, positive, h => by
    obtain ⟨_, ⟨⟩, hc⟩ := h _ List.mem_cons_self
    have hopposed := Clause.opposed_opposite hP hc
    rw [form, form]
    cases positive with
    | true => exact hopposed
    | false => exact hopposed.symm
  | const d, positive, _ => by
    rw [form, form]
    cases d.truth <;> cases positive
    · exact .verum_falsum
    · exact Dnf.Opposed.verum_falsum.symm
    · exact Dnf.Opposed.verum_falsum.symm
    · exact .verum_falsum
  | not e, positive, h => by
    rw [form, form]
    exact form_opposed hP e (!positive) h
  | ifThen a c, positive, h => by
    have ha := form_opposed hP a (!positive) fun leaf hleaf => h leaf (List.mem_append_left _ hleaf)
    have hc := form_opposed hP c positive fun leaf hleaf => h leaf (List.mem_append_right _ hleaf)
    -- an implication is the disjunction of the opposite of its premise and its conclusion
    rw [form, form]
    cases positive with
    | true => exact (Dnf.Opposed.conj_disj hP.congr (.cons ha.symm (.cons hc.symm .nil))).symm
    | false => exact Dnf.Opposed.conj_disj hP.congr (.cons ha (.cons hc .nil))
  | and args, positive, h => by
    have hargs := formEach_opposed hP args positive h
    rw [form, form]
    cases positive with
    | true => exact Dnf.Opposed.conj_disj hP.congr hargs
    | false => exact (Dnf.Opposed.conj_disj hP.congr (hargs.flip.imp fun _ _ => .symm)).symm
  | or args, positive, h => by
    have hargs := formEach_opposed hP args positive h
    rw [form, form]
    cases positive with
    | true => exact (Dnf.Opposed.conj_disj hP.congr (hargs.flip.imp fun _ _ => .symm)).symm
    | false => exact Dnf.Opposed.conj_disj hP.congr hargs
  | foreign d, _, h => by
    obtain ⟨_, ⟨⟩, _⟩ := h _ List.mem_cons_self

theorem formEach_opposed (hP : Clause.Unsigned P) : ∀ (es : List (Expr Rat)) (positive : Bool),
    (∀ leaf ∈ leavesEach es, ∃ c : Clause Rat, leaf = .inl c ∧ c.IsProper) →
    List.Forall₂ (Dnf.Opposed P) (formEach es positive) (formEach es (!positive))
  | [], _, _ => by rw [formEach, formEach]; exact .nil
  | e :: es, positive, h => by
    have he := form_opposed hP e positive fun leaf hleaf => h leaf (List.mem_append_left _ hleaf)
    have hes := formEach_opposed hP es positive fun leaf hleaf =>
      h leaf (List.mem_append_right _ hleaf)
    rw [formEach, formEach]
    exact .cons he hes
end

/-- **Both polarities are made of the same clauses.** The clauses of the normal form of an
expression have a property that opposites share exactly when those of its negation have it. -/
theorem within_form_iff (hP : Clause.Unsigned P) {e : Expr Rat} (he : e.IsProper) :
    (e.form true).Within P ↔ (e.form false).Within P :=
  (form_opposed hP e true he).within

end Expr

end RuleAudit
