import RuleAudit.Error

/-!
# Making clauses

Clauses are made from data of any kind, or from numbers and texts. Either way a variable must have
a name and a number must be finite; coefficients of one variable are added up from left to right
and the variables that cancel are left out.
-/

namespace RuleAudit

variable {K : Type} [Scalar K]

/-! ### Reading data as numbers and lists -/

namespace Datum

/-- The number in a datum; a text is read as a numeral and a truth value counts as one or zero. -/
def toNumber : Datum K → Except (Error K) K
  | bool b => .ok (if b then 1 else 0)
  | int n => match Scalar.ofInt? n with
    | some x => .ok x
    | none => .error (.overflow .integer)
  | real x => .ok x
  | text s => match Scalar.read? s with
    | some x => .ok x
    | none => .error (.invalid (.numeral s))
  | d => .error (.mistyped (.notNumeral d.kindName))

/-- The items of a datum: those of a list, the keys of a mapping, the characters of a text. -/
def iterate : Datum K → Except (Error K) (List (Datum K))
  | list items => .ok items
  | mapping entries => .ok (entries.map (·.1))
  | text s => .ok (s.toList.map fun c => text (String.ofList [c]))
  | d => .error (.mistyped (.notIterable d.kindName))

end Datum

/-- An error about a definition that no rule is named for. -/
def Error.flaw (f : Flaw K) : Error K :=
  .definition {} f

/-- A number must be finite. -/
def Quantity.check (q : Quantity) (x : K) (given : Datum K) : Except (Error K) K :=
  if Scalar.isFinite x then .ok x else .error (.flaw (.infinite q given))

/-- Read a finite number; a truth value is none. -/
def Quantity.read (q : Quantity) (d : Datum K) : Except (Error K) K :=
  match d with
  | .bool _ => .error (.flaw (.truthValue q))
  | d => match d.toNumber with
    | .ok x => q.check x d
    | .error (.overflow o) => .error (.overflow o)
    | .error _ => .error (.flaw (.noNumber q d))

/-- A name of a variable. -/
abbrev VarName := { s : String // s ≠ "" }

/-- Read the name of a variable. -/
def VarName.read (d : Datum K) : Except (Error K) VarName :=
  match d with
  | .text s => if h : s ≠ "" then .ok ⟨s, h⟩ else .error (.flaw (.variableName d))
  | d => .error (.flaw (.variableName d))

/-! ### Linear clauses -/

namespace LinearClause

/-- Add a coefficient to a list of coefficients with ascending names. -/
def accumulate (name : String) (a : K) : List (String × K) → List (String × K)
  | [] => [(name, 0 + a)]
  | (n, b) :: rest =>
    if name < n then (name, 0 + a) :: (n, b) :: rest
    else if name = n then (n, b + a) :: rest
    else (n, b) :: accumulate name a rest

theorem mem_accumulate {name : String} {a : K} {l : List (String × K)} {t : String × K}
    (h : t ∈ accumulate name a l) : t.1 = name ∨ ∃ s ∈ l, s.1 = t.1 := by
  induction l with
  | nil => simp only [accumulate, List.mem_singleton] at h; exact .inl (by rw [h])
  | cons s rest ih =>
    obtain ⟨n, b⟩ := s
    rw [accumulate] at h
    split at h
    · rcases List.mem_cons.1 h with rfl | h
      · exact .inl rfl
      · exact .inr ⟨t, h, rfl⟩
    · split at h
      · rcases List.mem_cons.1 h with rfl | h
        · exact .inr ⟨(n, b), List.mem_cons_self, rfl⟩
        · exact .inr ⟨t, List.mem_cons_of_mem _ h, rfl⟩
      · rcases List.mem_cons.1 h with rfl | h
        · exact .inr ⟨(n, b), List.mem_cons_self, rfl⟩
        · rcases ih h with h | ⟨s, hs, h⟩
          · exact .inl h
          · exact .inr ⟨s, List.mem_cons_of_mem _ hs, h⟩

theorem accumulate_ascending (name : String) (a : K) {l : List (String × K)}
    (h : l.Pairwise fun s t => s.1 < t.1) :
    (accumulate name a l).Pairwise fun s t => s.1 < t.1 := by
  induction l with
  | nil => simp [accumulate]
  | cons s rest ih =>
    obtain ⟨n, b⟩ := s
    obtain ⟨hn, hrest⟩ := List.pairwise_cons.1 h
    rw [accumulate]
    split
    · rename_i hlt
      refine List.pairwise_cons.2 ⟨fun t ht => ?_, h⟩
      rcases List.mem_cons.1 ht with rfl | ht
      · exact hlt
      · exact String.lt_trans hlt (hn t ht)
    · rename_i hlt
      split
      · exact List.pairwise_cons.2 ⟨hn, hrest⟩
      · rename_i hne
        refine List.pairwise_cons.2 ⟨fun t ht => ?_, ih hrest⟩
        rcases mem_accumulate ht with h | ⟨s, hs, h⟩
        · have hlt' : n < t.1 := h ▸ Std.lt_of_le_of_ne (Std.not_lt.1 hlt) (Ne.symm hne)
          exact hlt'
        · exact h ▸ hn s hs

/-- Coefficients added up by name, names ascending. -/
def collect (pairs : List (String × K)) : List (String × K) :=
  pairs.foldl (fun l p => accumulate p.1 p.2 l) []

theorem collect_ascending (pairs : List (String × K)) :
    (collect pairs).Pairwise fun s t => s.1 < t.1 := by
  suffices h : ∀ l : List (String × K), l.Pairwise (fun s t => s.1 < t.1) →
      (pairs.foldl (fun l p => accumulate p.1 p.2 l) l).Pairwise fun s t => s.1 < t.1 from
    h [] .nil
  induction pairs with
  | nil => exact fun l h => h
  | cons p rest ih => exact fun l h => ih _ (accumulate_ascending p.1 p.2 h)

/-- Every collected name is one of the given names. -/
theorem mem_collect {pairs : List (String × K)} {t : String × K} (h : t ∈ collect pairs) :
    ∃ p ∈ pairs, p.1 = t.1 := by
  suffices hs : ∀ l : List (String × K),
      t ∈ pairs.foldl (fun l p => accumulate p.1 p.2 l) l →
        (∃ s ∈ l, s.1 = t.1) ∨ ∃ p ∈ pairs, p.1 = t.1 by
    rcases hs [] h with ⟨s, hs, _⟩ | h
    · cases hs
    · exact h
  clear h
  induction pairs with
  | nil => exact fun l h => .inl ⟨t, h, rfl⟩
  | cons p rest ih =>
    intro l h
    rcases ih _ h with ⟨s, hs, he⟩ | ⟨q, hq, he⟩
    · rcases mem_accumulate hs with hp | ⟨u, hu, he'⟩
      · exact .inr ⟨p, List.mem_cons_self, by rw [← he, hp]⟩
      · exact .inl ⟨u, hu, by rw [he', he]⟩
    · exact .inr ⟨q, List.mem_cons_of_mem _ hq, he⟩

/-- The clause with the given coefficients added up. -/
def canonical (pairs : List (VarName × K)) (relation : Relation) (rhs : K) : LinearClause K where
  terms := (collect (pairs.map fun p => (p.1.1, p.2))).filter fun t => !(t.2 == 0)
  relation := relation
  rhs := rhs
  ascending := (collect_ascending _).filter _
  nonzero := by simp +contextual
  named := by
    intro t ht
    obtain ⟨p, hp, he⟩ := mem_collect (List.mem_filter.1 ht).1
    obtain ⟨q, -, rfl⟩ := List.mem_map.1 hp
    exact he ▸ q.1.2

/-- Make a clause from data. -/
def make (pairs : List (Datum K × Datum K)) (relation rhs : Datum K) :
    Except (Error K) (LinearClause K) := do
  let terms ← pairs.mapM fun (name, coef) => do
    let name ← VarName.read name
    return (name, ← (Quantity.coefficient name.1).read coef)
  let relation ← match relation with
    | .text s => match Relation.ofSymbol? s with
      | some r => pure r
      | none => .error (.flaw (.relation (.text s)))
    | d => .error (.flaw (.relation d))
  let rhs ← Quantity.rightSide.read rhs
  return canonical terms relation rhs

/-- Make a clause from numbers. -/
def ofPairs (pairs : List (String × K)) (relation : Relation) (rhs : K) :
    Except (Error K) (LinearClause K) := do
  let terms ← pairs.mapM fun (name, coef) => do
    let name ← VarName.read (.text name)
    return (name, ← (Quantity.coefficient name.1).check coef (.real coef))
  let rhs ← Quantity.rightSide.check rhs (.real rhs)
  return canonical terms relation rhs

/-- The clause over some of its terms, with another right side; its numbers are checked again. -/
def rebuild (c : LinearClause K) (keep : String → Bool) (relation : Relation) (rhs : K) :
    Except (Error K) (LinearClause K) := do
  let terms := c.terms.filter fun t => keep t.1
  for (name, coef) in terms do
    let _ ← (Quantity.coefficient name).check coef (.real coef)
  let rhs ← Quantity.rightSide.check rhs (.real rhs)
  return {
    terms, relation, rhs
    ascending := c.ascending.filter _
    nonzero := fun t ht => c.nonzero t (List.mem_filter.1 ht).1
    named := fun t ht => c.named t (List.mem_filter.1 ht).1 }

end LinearClause

/-! ### Membership clauses -/

namespace MembershipClause

/-- Put a label into an ascending list of labels. -/
def insertLabel (label : String) : List String → List String
  | [] => [label]
  | l :: rest =>
    if label < l then label :: l :: rest
    else if label = l then l :: rest
    else l :: insertLabel label rest

theorem mem_insertLabel {label l : String} {ls : List String} :
    l ∈ insertLabel label ls ↔ l = label ∨ l ∈ ls := by
  induction ls with
  | nil => simp [insertLabel]
  | cons k rest ih =>
    rw [insertLabel]
    split
    · simp
    · split
      · rename_i h; subst h; simp
      · simp only [List.mem_cons, ih]; grind

theorem insertLabel_ascending (label : String) {ls : List String} (h : ls.Pairwise (· < ·)) :
    (insertLabel label ls).Pairwise (· < ·) := by
  induction ls with
  | nil => simp [insertLabel]
  | cons k rest ih =>
    obtain ⟨hk, hrest⟩ := List.pairwise_cons.1 h
    rw [insertLabel]
    split
    · rename_i hlt
      refine List.pairwise_cons.2 ⟨fun l hl => ?_, h⟩
      rcases List.mem_cons.1 hl with rfl | hl
      · exact hlt
      · exact String.lt_trans hlt (hk l hl)
    · rename_i hlt
      split
      · exact h
      · rename_i hne
        refine List.pairwise_cons.2 ⟨fun l hl => ?_, ih hrest⟩
        rcases mem_insertLabel.1 hl with rfl | hl
        · exact Std.lt_of_le_of_ne (Std.not_lt.1 hlt) (Ne.symm hne)
        · exact hk l hl

/-- Labels in ascending order without repetition. -/
def sortLabels (labels : List String) : List String :=
  labels.foldl (fun ls l => insertLabel l ls) []

theorem sortLabels_ascending (labels : List String) : (sortLabels labels).Pairwise (· < ·) := by
  suffices h : ∀ ls : List String, ls.Pairwise (· < ·) →
      (labels.foldl (fun ls l => insertLabel l ls) ls).Pairwise (· < ·) from h [] .nil
  induction labels with
  | nil => exact fun ls h => h
  | cons l rest ih => exact fun ls h => ih _ (insertLabel_ascending l h)

/-- Sorting keeps exactly the given labels. -/
theorem mem_sortLabels {l : String} {labels : List String} :
    l ∈ sortLabels labels ↔ l ∈ labels := by
  suffices h : ∀ ls : List String,
      l ∈ labels.foldl (fun ls l => insertLabel l ls) ls ↔ l ∈ ls ∨ l ∈ labels by
    simpa [sortLabels] using h []
  induction labels with
  | nil => simp
  | cons k rest ih =>
    intro ls
    rw [List.foldl_cons, ih, mem_insertLabel, List.mem_cons]
    grind

/-- Make a clause from a name and labels. -/
def ofLabels (subject : VarName) (labels : List String) (negated : Bool) : MembershipClause where
  subject := subject.1
  labels := sortLabels labels
  negated := negated
  ascending := sortLabels_ascending labels
  named := subject.2

/-- Make a clause from data: a text is one label, and the clause is negated if the last datum
counts as true. -/
def make (subject labels negated : Datum K) : Except (Error K) MembershipClause := do
  let subject ← VarName.read subject
  match labels with
  | .text s => return ofLabels subject [s] negated.truth
  | d => return ofLabels subject ((← d.iterate).map Datum.label) negated.truth

/-- The clause that says the opposite. -/
def negate (c : MembershipClause) : MembershipClause :=
  { c with negated := !c.negated }

end MembershipClause

end RuleAudit
