import RuleAudit.Proofs.Rule

/-!
# Normalising what was read off a normal form

A reduced normal form is read off as an expression without constant atoms and without repetitions.
So normalising that expression gives the normal form back, if its clauses agree on the kinds of
their variables (`Expr.toDnf_ofDnf`). A rule that was made from a normal form is therefore the same
rule as the one that its expression alone would make (`Rule.dnf_eq_toDnf`).
-/

namespace RuleAudit

open Outcome

variable {K : Type} [Scalar K]

namespace Dnf

variable {d : Dnf K} {term : Term K}

/-- No clause of a term of a reduced form equals a later one. -/
theorem IsReduced.pairwise_term (h : d.IsReduced) (hterm : term ∈ d) :
    term.Pairwise fun a b => (b == a) = false := by
  obtain ⟨given, rfl⟩ := h
  rw [reduce] at hterm
  split at hterm
  · obtain rfl := List.mem_singleton.mp hterm
    exact .nil
  · obtain ⟨kept, -, rfl⟩ := List.mem_map.mp ((eraseDups_sublist _).subset hterm)
    exact pairwise_eraseDups kept

theorem eraseDups_singleton {α : Type} [BEq α] (a : α) : [a].eraseDups = [a] :=
  eraseDups_of_pairwise (List.pairwise_singleton _ a)

/-- A clause that depends on a variable is a reduced form. -/
theorem reduce_clause {c : Clause K} (hc : c.constant? = none) : reduce [[c]] = [[c]] := by
  have hopen : IsOpen [[c]] := fun _ hterm _ hmem => by
    obtain rfl := List.mem_singleton.mp hterm
    exact List.mem_singleton.mp hmem ▸ hc
  rw [reduce, hopen.filterMap_reduceTerm]
  exact congrArg (fun t => [t].eraseDups) (eraseDups_singleton c) |>.trans (eraseDups_singleton _)

/-- Distributing over single clauses strings them together. -/
theorem foldl_cross_clauses (front : Term K)
    (h : (front ++ term).Pairwise fun a b => (b == a) = false) :
    (term.map fun c => [[c]]).foldl cross [front] = [front ++ term] := by
  induction term generalizing front with
  | nil => rw [List.append_nil]; rfl
  | cons c term ih =>
    have hcross : cross [front] [[c]] = [front ++ [c]] := by
      have hsublist : (front ++ [c]).Sublist (front ++ c :: term) :=
        (List.singleton_sublist.mpr List.mem_cons_self).append_left front
      have hfront : (front ++ [c]).eraseDups = front ++ [c] :=
        eraseDups_of_pairwise (h.sublist hsublist)
      exact (congrArg (fun t => [t].eraseDups) hfront).trans (eraseDups_singleton _)
    rw [List.append_cons] at h
    rw [List.map_cons, List.foldl_cons, hcross, ih _ h, List.append_assoc, List.singleton_append]

/-- The conjunction of the clauses of a reduced term is the term. -/
theorem IsReduced.conj_clauses (h : d.IsReduced) (hterm : term ∈ d) :
    conj (term.map fun c => [[c]]) = [term] := by
  have hfold := foldl_cross_clauses [] (h.pairwise_term hterm)
  rw [conj, verum, hfold]
  exact h.reduce_sublist (List.singleton_sublist.mpr hterm)

/-- The disjunction of the terms of a reduced form is the form. -/
theorem IsReduced.disj_terms (h : d.IsReduced) : disj (d.map fun term => [term]) = d := by
  have hflatten : (d.map fun term => [term]).flatten = d := by
    rw [← List.flatMap_def]
    exact List.flatMap_singleton' d
  rw [disj, hflatten, h.reduce_eq]

end Dnf

namespace Expr

variable {rule : Datum K} {d : Dnf K}

/-- Clauses are met one after the other. -/
theorem normalizeEach_atoms {cs : List (Clause K)} (h : ∀ c ∈ cs, c.constant? = none)
    (census : Census) : normalizeEach rule (cs.map atom) true census =
      (cs.map fun c => [[c]], ·) <$> cs.foldlM (Census.register rule) census := by
  induction cs generalizing census with
  | nil => rfl
  | cons c cs ih =>
    obtain ⟨hc, hcs⟩ := List.forall_mem_cons.mp h
    rw [List.map_cons, normalizeEach, normalize, List.foldlM_cons, bind_assoc, map_bind]
    refine bind_congr fun next => ?_
    simp only [if_true, pure_bind, Dnf.reduce_clause hc, ih hcs, List.map_cons,
      map_eq_pure_bind, bind_assoc]

/-- The expression of a term of a reduced form is normalised to that term. -/
theorem normalize_ofTerm (h : d.IsReduced) {term : Term K} (hterm : term ∈ d) (census : Census) :
    normalize rule (ofTerm term) true census =
      ([term], ·) <$> term.foldlM (Census.register rule) census := by
  have hopen : ∀ c ∈ term, c.constant? = none := fun c hc => h.constant?_eq_none hterm hc
  unfold ofTerm
  split
  · next c =>
    have hc := hopen c List.mem_cons_self
    rw [normalize, List.foldlM_cons, map_bind]
    refine bind_congr fun next => ?_
    simp only [if_true, pure_bind, Dnf.reduce_clause hc]
    rfl
  · rw [normalize, normalizeEach_atoms hopen, bind_map_left]
    simp only [if_true, h.conj_clauses hterm]
    exact (map_eq_pure_bind _ _).symm

/-- The terms are met one after the other. -/
theorem normalizeEach_terms (h : d.IsReduced) {terms : List (Term K)} (hterms : terms ⊆ d)
    (census : Census) : normalizeEach rule (terms.map ofTerm) true census =
      (terms.map fun term => [term], ·) <$>
        terms.flatten.foldlM (Census.register rule) census := by
  induction terms generalizing census with
  | nil => rfl
  | cons term terms ih =>
    obtain ⟨hterm, hterms⟩ := List.cons_subset.mp hterms
    rw [List.map_cons, normalizeEach, normalize_ofTerm h hterm, List.flatten_cons,
      List.foldlM_append, bind_map_left, map_bind]
    refine bind_congr fun next => ?_
    simp only [ih hterms, List.map_cons, map_eq_pure_bind, bind_assoc, pure_bind]

/-- What is read off a reduced form is normalised to that form. -/
theorem normalize_ofDnf (h : d.IsReduced) (census : Census) :
    normalize rule (ofDnf d) true census =
      (d, ·) <$> d.flatten.foldlM (Census.register rule) census := by
  unfold ofDnf
  split
  · next hempty =>
    obtain rfl := List.isEmpty_iff.mp hempty
    rfl
  · split
    · next hany =>
      obtain rfl : d = Dnf.verum := by
        refine h.eq_verum_or.resolve_right fun hne => ?_
        obtain ⟨term, hterm, hnil⟩ := List.any_eq_true.mp hany
        exact hne term hterm (List.isEmpty_iff.mp hnil)
      rfl
    · split
      · next term =>
        rw [normalize_ofTerm h List.mem_cons_self, List.flatten_cons, List.flatten_nil,
          List.append_nil]
      · rw [normalize, normalizeEach_terms h (List.Subset.refl _), bind_map_left]
        simp only [if_true, h.disj_terms]
        exact (map_eq_pure_bind _ _).symm

/-- **A normal form is normalised to itself**, if it uses every variable with one kind. -/
theorem toDnf_ofDnf (h : d.IsReduced) (rule : Datum K) :
    (ofDnf d).toDnf rule = (fun _ => d) <$> d.kinds rule := by
  rw [toDnf, normalize_ofDnf h, bind_map_left, Dnf.kinds]
  simp only [map_eq_pure_bind, bind_assoc, pure_bind]

end Expr

namespace Rule

variable {r : Rule K} {d : Dnf K}

/-- A normal form that was kept with a rule is the one that its expression has. -/
theorem toDnf_eq {table : List (String × VarKind)} (hd : r.dnf = .ok d)
    (hk : d.kinds (.text r.name) = .ok table) : r.expr.toDnf (.text r.name) = .ok d := by
  rcases dnf_cases hd with ⟨hreduced, hexpr⟩ | hmade
  · rw [hexpr, Expr.toDnf_ofDnf hreduced, hk]
    rfl
  · exact hmade

/-- A rule of one kind for each variable has the normal form that its expression has. -/
theorem dnf_eq_toDnf {kinds : String → VarKind} (h : r.expr.HasKinds kinds) :
    r.dnf = r.expr.toDnf (.text r.name) := by
  rw [dnf]
  split
  · next kept hkept =>
    obtain ⟨hreduced, hexpr⟩ := r.read_off kept hkept
    have hkinds : kept.Within (Clause.HasKinds kinds) := Dnf.within_iff_flatten.mpr fun c hc => by
      have hleaf := Expr.clauses_subset_leaves_ofDnf hreduced
        (List.mem_map_of_mem (f := Sum.inl) hc)
      obtain ⟨_, ⟨⟩, hkinds⟩ := h _ (hexpr ▸ hleaf)
      exact hkinds
    obtain ⟨table, htable⟩ : ∃ table, kept.kinds (.text r.name) = .ok table :=
      Dnf.exists_kinds hkinds
    rw [hexpr, Expr.toDnf_ofDnf hreduced, htable]
    rfl
  · rfl

/-- Where the expression of a rule has a normal form, the rule has it. -/
theorem dnf_of_toDnf {label : Datum K} (h : r.expr.toDnf label = .ok d) : r.dnf = .ok d := by
  rw [dnf]
  split
  · next kept hkept =>
    obtain ⟨hreduced, hexpr⟩ := r.read_off kept hkept
    rw [hexpr, Expr.toDnf_ofDnf hreduced] at h
    cases hkinds : kept.kinds label with
    | error err => rw [hkinds] at h; cases h
    | ok table => rw [hkinds] at h; exact h
  · exact Expr.toDnf_eq_ok h _

end Rule

end RuleAudit
