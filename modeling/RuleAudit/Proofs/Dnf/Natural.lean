import RuleAudit.Dnf.Normalize
import RuleAudit.Proofs.Dnf.Reduce

/-!
# Normal forms are natural

Normalising compares clauses, decides the constant ones, counts them, records their variables and
negates them, and does nothing else with them. So a change of clauses that agrees with these
operations can be made before or after (`Expr.toDnf_mapClauses`).
-/

namespace RuleAudit

open Outcome

variable {K : Type} [Scalar K]

/-! ### Changing every clause -/

namespace Expr

mutual
/-- The expression with every clause changed. -/
def mapClauses (f : Clause K → Clause K) : Expr K → Expr K
  | atom c => atom (f c)
  | const v => const v
  | and args => and (mapClausesEach f args)
  | or args => or (mapClausesEach f args)
  | not e => not (mapClauses f e)
  | ifThen a c => ifThen (mapClauses f a) (mapClauses f c)
  | foreign v => foreign v

/-- Several expressions with every clause changed. -/
def mapClausesEach (f : Clause K → Clause K) : List (Expr K) → List (Expr K)
  | [] => []
  | e :: rest => mapClauses f e :: mapClausesEach f rest
end

@[simp]
theorem mapClausesEach_eq (f : Clause K → Clause K) (es : List (Expr K)) :
    mapClausesEach f es = es.map (mapClauses f) := by
  induction es with
  | nil => rfl
  | cons e es ih => rw [mapClausesEach, ih, List.map_cons]

end Expr

/-- The disjunction with every clause changed. -/
def Dnf.mapClauses (f : Clause K → Clause K) (d : Dnf K) : Dnf K :=
  d.map (List.map f)

/-- A change of clauses that no normal form can tell. -/
structure Clause.IsNatural (f : Clause K → Clause K) : Prop where
  beq_eq : ∀ c d, (f c == f d) = (c == d)
  constant?_eq : ∀ c, (f c).constant? = c.constant?
  register_eq : ∀ rule census c, Census.register rule census (f c) = census.register rule c
  negate_eq : ∀ c, (f c).negate = Dnf.mapClauses f <$> c.negate

/-! ### Lists -/

section EraseDups

variable {α β : Type} [BEq α] [BEq β]

/-- Repetitions are dropped alike before and after a change that keeps equality. -/
theorem eraseDups_map {f : α → β} (hf : ∀ a b, (f a == f b) = (a == b)) (l : List α) :
    (l.map f).eraseDups = l.eraseDups.map f := by
  induction h : l.length using Nat.strong_induction_on generalizing l with
  | _ n ih =>
    cases l with
    | nil => rfl
    | cons a l =>
      have hlen : (l.filter fun b => !b == a).length < n := by
        have := List.length_filter_le (fun b => !b == a) l
        simp only [List.length_cons] at h
        omega
      have hfilter : (l.map f).filter (fun b => !b == f a) = (l.filter fun b => !b == a).map f := by
        rw [List.filter_map]
        congr 1
        exact List.filter_congr fun b _ => by rw [Function.comp_apply, hf]
      rw [List.map_cons, List.eraseDups_cons, List.eraseDups_cons, hfilter, ih _ hlen _ rfl,
        List.map_cons]

theorem map_beq_map {f : α → β} (hf : ∀ a b, (f a == f b) = (a == b)) :
    ∀ s t : List α, (s.map f == t.map f) = (s == t)
  | [], [] => rfl
  | [], _ :: _ => rfl
  | _ :: _, [] => rfl
  | a :: s, b :: t => by
    rw [List.map_cons, List.map_cons, List.cons_beq_cons, List.cons_beq_cons, hf,
      map_beq_map hf s t]

end EraseDups

/-! ### Disjunctions -/

namespace Dnf

variable {f : Clause K → Clause K} (hf : Clause.IsNatural f)

include hf

theorem mapClauses_beq (d e : Dnf K) : (d.mapClauses f == e.mapClauses f) = (d == e) :=
  map_beq_map (map_beq_map hf.beq_eq) d e

theorem reduceTerm_map (term : Term K) :
    reduceTerm (term.map f) = (reduceTerm term).map (List.map f) := by
  have hany : (term.map f).any (·.constant? == some false) =
      term.any (·.constant? == some false) := by
    rw [List.any_map]
    exact List.any_congr rfl fun c => by rw [Function.comp_apply, hf.constant?_eq]
  have hfilter : (term.map f).filter (·.constant? == none) =
      (term.filter (·.constant? == none)).map f := by
    rw [List.filter_map]
    congr 1
    exact List.filter_congr fun c _ => by rw [Function.comp_apply, hf.constant?_eq]
  rw [reduceTerm, reduceTerm, hany, hfilter]
  split <;> rfl

theorem reduce_mapClauses (d : Dnf K) : reduce (d.mapClauses f) = (reduce d).mapClauses f := by
  have hterms : (d.mapClauses f).filterMap reduceTerm =
      (d.filterMap reduceTerm).map (List.map f) := by
    rw [mapClauses, List.filterMap_map, List.map_filterMap]
    exact congrArg (List.filterMap · d) (funext fun term => reduceTerm_map hf term)
  have hany : ((d.filterMap reduceTerm).map (List.map f)).any (·.isEmpty) =
      (d.filterMap reduceTerm).any (·.isEmpty) := by
    rw [List.any_map]
    exact List.any_congr rfl fun term => by simp
  have hdups : ((d.filterMap reduceTerm).map (List.map f)).map (·.eraseDups) =
      ((d.filterMap reduceTerm).map (·.eraseDups)).map (List.map f) := by
    rw [List.map_map, List.map_map]
    exact List.map_congr_left fun term _ => eraseDups_map hf.beq_eq term
  rw [reduce, reduce, hterms, hany, hdups, eraseDups_map (map_beq_map hf.beq_eq)]
  split <;> rfl

theorem cross_mapClauses (a b : Dnf K) :
    cross (a.mapClauses f) (b.mapClauses f) = (cross a b).mapClauses f := by
  have hpairs : ((a.mapClauses f).flatMap fun s => (b.mapClauses f).map fun t =>
      (s ++ t).eraseDups) =
        (a.flatMap fun s => b.map fun t => (s ++ t).eraseDups).map (List.map f) := by
    have hright : ∀ s : Term K, (b.map (List.map f)).map (fun t => (s.map f ++ t).eraseDups) =
        (b.map fun t => (s ++ t).eraseDups).map (List.map f) := fun s => by
      rw [List.map_map, List.map_map]
      refine List.map_congr_left fun t _ => ?_
      rw [Function.comp_apply, Function.comp_apply, ← List.map_append, eraseDups_map hf.beq_eq]
    rw [List.map_flatMap]
    rw [mapClauses, mapClauses, List.flatMap_map]
    exact congrArg (List.flatMap · a) (funext hright)
  rw [cross, cross, hpairs, eraseDups_map (map_beq_map hf.beq_eq), mapClauses]

theorem conj_mapClauses (parts : List (Dnf K)) :
    conj (parts.map (mapClauses f)) = (conj parts).mapClauses f := by
  have hfold : ∀ start : Dnf K, (parts.map (mapClauses f)).foldl cross (start.mapClauses f) =
      (parts.foldl cross start).mapClauses f := by
    induction parts with
    | nil => exact fun _ => rfl
    | cons d parts ih =>
      intro start
      rw [List.map_cons, List.foldl_cons, List.foldl_cons, cross_mapClauses hf, ih]
  have hverum : (verum : Dnf K).mapClauses f = verum := rfl
  rw [conj, conj, ← reduce_mapClauses hf, ← hfold, hverum]

theorem disj_mapClauses (parts : List (Dnf K)) :
    disj (parts.map (mapClauses f)) = (disj parts).mapClauses f := by
  rw [disj, disj, ← reduce_mapClauses hf, mapClauses, List.map_flatten]
  rfl

end Dnf

/-! ### Expressions -/

namespace Expr

variable {f : Clause K → Clause K}

mutual
theorem normalize_mapClauses (hf : Clause.IsNatural f) (rule : Datum K) :
    ∀ (e : Expr K) (positive : Bool) (census : Census),
    normalize rule (e.mapClauses f) positive census =
      (fun p => (p.1.mapClauses f, p.2)) <$> normalize rule e positive census
  | atom c, positive, census => by
    rw [mapClauses, normalize, normalize, hf.register_eq, map_bind]
    refine bind_congr fun census => ?_
    cases positive with
    | true => exact congrArg (fun d => Except.ok (d, census)) (Dnf.reduce_mapClauses hf [[c]])
    | false =>
      simp only [Bool.false_eq_true, if_false, hf.negate_eq, bind_map_left, map_bind, map_pure,
        Dnf.reduce_mapClauses hf]
  | const v, positive, census => by
    rw [mapClauses, normalize]
    split <;> rfl
  | not e, positive, census => by
    rw [mapClauses, normalize, normalize, normalize_mapClauses hf rule e]
  | ifThen a c, positive, census => by
    rw [mapClauses, normalize, normalize, normalize_mapClauses hf rule a, bind_map_left, map_bind]
    refine bind_congr fun p => ?_
    simp only [normalize_mapClauses hf rule c, map_bind, bind_map_left, map_pure]
    refine bind_congr fun q => ?_
    have hconj := Dnf.conj_mapClauses hf [p.1, q.1]
    have hdisj := Dnf.disj_mapClauses hf [p.1, q.1]
    rw [List.map_cons, List.map_cons, List.map_nil] at hconj hdisj
    rw [hconj, hdisj]
    split <;> rfl
  | and args, positive, census => by
    rw [mapClauses, normalize, normalize, normalizeEach_mapClauses hf rule args, bind_map_left,
      map_bind]
    refine bind_congr fun p => ?_
    dsimp only
    rw [Dnf.conj_mapClauses hf, Dnf.disj_mapClauses hf]
    split <;> rfl
  | or args, positive, census => by
    rw [mapClauses, normalize, normalize, normalizeEach_mapClauses hf rule args, bind_map_left,
      map_bind]
    refine bind_congr fun p => ?_
    dsimp only
    rw [Dnf.conj_mapClauses hf, Dnf.disj_mapClauses hf]
    split <;> rfl
  | foreign v, positive, census => rfl

theorem normalizeEach_mapClauses (hf : Clause.IsNatural f) (rule : Datum K) :
    ∀ (es : List (Expr K)) (positive : Bool) (census : Census),
    normalizeEach rule (mapClausesEach f es) positive census =
      (fun p => (p.1.map (Dnf.mapClauses f), p.2)) <$> normalizeEach rule es positive census
  | [], positive, census => rfl
  | e :: rest, positive, census => by
    rw [mapClausesEach, normalizeEach, normalizeEach, normalize_mapClauses hf rule e, bind_map_left,
      map_bind]
    refine bind_congr fun p => ?_
    simp only [normalizeEach_mapClauses hf rule rest, map_bind, bind_map_left, map_pure,
      List.map_cons]
end

/-- **Changing clauses and normalising commute.** -/
theorem toDnf_mapClauses (hf : Clause.IsNatural f) (e : Expr K) (rule : Datum K) :
    (e.mapClauses f).toDnf rule = Dnf.mapClauses f <$> e.toDnf rule := by
  rw [toDnf, toDnf, normalize_mapClauses hf, bind_map_left, map_bind]
  rfl

end Expr

end RuleAudit
