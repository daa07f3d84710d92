import Mathlib.Algebra.BigOperators.Group.List.Basic
import RuleAudit.Proofs.Clause
import RuleAudit.Proofs.Datum
import RuleAudit.Tree.Linear

/-!
# The meaning of linear expressions

A linear expression has a value at every choice of numbers for its variables, computed on the tree
as it is written. The reader accepts exactly the expressions of the grammar `Tree.IsLinear`, and
the coefficients and the constant that it finds give the same value: `Tree.exists_linear_iff`,
`Tree.reads_of_linear`.

Linearity is a matter of the names that are mentioned, not of coefficients: zero times a variable
still mentions it, so two such factors are refused.
-/

namespace RuleAudit.Tree

open Outcome

/-! ### Names, values and the grammar -/

section Names

variable {K : Type}

mutual
/-- The names that a linear expression mentions. -/
def names : Datum K → List String
  | .text s => [s]
  | .mapping entries => nodeNames entries
  | _ => []

/-- The names under an operator. -/
def nodeNames : List (Datum K × Datum K) → List String
  | [(.text "var", .text s)] => [s]
  | [(_, .list args)] => namesEach args
  | _ => []

/-- The names in several linear expressions. -/
def namesEach : List (Datum K) → List String
  | [] => []
  | d :: rest => names d ++ namesEach rest
end

@[simp]
theorem namesEach_eq (ds : List (Datum K)) : namesEach ds = ds.flatMap names := by
  induction ds with
  | nil => rfl
  | cons d ds ih => rw [namesEach, ih, List.flatMap_cons]

end Names

section Value

variable (x : String → Rat)

mutual
/-- The value of a linear expression when its variables have the values `x`. -/
def value : Datum Rat → Rat
  | .int n => n
  | .real q => q
  | .text s => x s
  | .mapping entries => nodeValue entries
  | _ => 0

/-- The value under an operator: an empty sum is zero, an empty product one. -/
def nodeValue : List (Datum Rat × Datum Rat) → Rat
  | [(.text "var", .text s)] => x s
  | [(.text "+", .list args)] => (valuesEach args).sum
  | [(.text "-", .list [a])] => -value a
  | [(.text "-", .list [a, b])] => value a - value b
  | [(.text "*", .list args)] => (valuesEach args).prod
  | [(.text "/", .list [a, c])] => value a / value c
  | _ => 0

/-- The values of several linear expressions. -/
def valuesEach : List (Datum Rat) → List Rat
  | [] => []
  | d :: rest => value d :: valuesEach rest
end

@[simp]
theorem valuesEach_eq (ds : List (Datum Rat)) : valuesEach x ds = ds.map (value x) := by
  induction ds with
  | nil => rfl
  | cons d ds ih => rw [valuesEach, ih, List.map_cons]

end Value

/-- An expression mentions a variable. -/
def isOpen (d : Datum Rat) : Bool :=
  !(names d).isEmpty

/-- The grammar of linear expressions. -/
inductive IsLinear : Datum Rat → Prop
  | int (n : Int) : IsLinear (.int n)
  | real (q : Rat) : IsLinear (.real q)
  | name {s : String} (hs : s ≠ "") : IsLinear (.text s)
  | var {s : String} (hs : s ≠ "") : IsLinear (.mapping [(.text "var", .text s)])
  | sum {args : List (Datum Rat)} (hargs : ∀ d ∈ args, IsLinear d) :
    IsLinear (.mapping [(.text "+", .list args)])
  | opposite {a : Datum Rat} (ha : IsLinear a) : IsLinear (.mapping [(.text "-", .list [a])])
  | difference {a b : Datum Rat} (ha : IsLinear a) (hb : IsLinear b) :
    IsLinear (.mapping [(.text "-", .list [a, b])])
  | product {args : List (Datum Rat)} (hargs : ∀ d ∈ args, IsLinear d)
    (hopen : args.countP isOpen ≤ 1) : IsLinear (.mapping [(.text "*", .list args)])
  | quotient {a c : Datum Rat} (ha : IsLinear a) (hc : IsLinear c) (hclosed : isOpen c = false)
    (hzero : ∀ x, value x c ≠ 0) : IsLinear (.mapping [(.text "/", .list [a, c])])

/-! ### Weighted sums -/

namespace Affine

variable {a b c : Affine Rat}

/-- The value of a weighted sum with a constant. -/
def valueAt (a : Affine Rat) (x : String → Rat) : Rat :=
  weighted x a.coefs + a.const

theorem valueAt_scale (a : Affine Rat) (q : Rat) (x : String → Rat) :
    (a.scale q).valueAt x = a.valueAt x * q := by
  have hscale : (a.scale q).valueAt x =
      weighted x (a.coefs.map fun t => (t.1, t.2 * q)) + a.const * q := rfl
  rw [hscale, weighted_scale, ← add_mul, valueAt]

theorem valueAt_add (a b : Affine Rat) (x : String → Rat) :
    (a.add b).valueAt x = a.valueAt x + b.valueAt x := by
  suffices h : ∀ l : List (String × Rat),
      weighted x (b.coefs.foldl (fun l t => Assoc.put t.1 ((Assoc.get? t.1 l).getD 0 + t.2) l) l) =
        weighted x l + weighted x b.coefs by
    have hsum : (a.add b).valueAt x =
        weighted x a.coefs + weighted x b.coefs + (a.const + b.const) :=
      congrArg (· + (a.const + b.const)) (h a.coefs)
    rw [hsum, add_add_add_comm, valueAt, valueAt]
  induction b.coefs with
  | nil => simp
  | cons t terms ih =>
    intro l
    rw [List.foldl_cons, ih, weighted_put, weighted_cons, add_assoc]

/-- A name has a coefficient. -/
def Has (a : Affine Rat) (s : String) : Prop :=
  s ∈ a.coefs.map (·.1)

theorem has_scale {q : Rat} {s : String} : (a.scale q).Has s ↔ a.Has s := by
  simp [Has, scale]

theorem has_add {s : String} : (a.add b).Has s ↔ a.Has s ∨ b.Has s := by
  suffices h : ∀ l : List (String × Rat),
      s ∈ (b.coefs.foldl (fun l t => Assoc.put t.1 ((Assoc.get? t.1 l).getD 0 + t.2) l) l).map
        (·.1) ↔ s ∈ l.map (·.1) ∨ s ∈ b.coefs.map (·.1) from h a.coefs
  induction b.coefs with
  | nil => simp
  | cons t terms ih =>
    intro l
    rw [List.foldl_cons, ih, Assoc.mem_keys_put, List.map_cons, List.mem_cons, or_assoc,
      or_left_comm, eq_comm]

/-- An expression gives the names and the values of a tree. -/
structure Reads (a : Affine Rat) (d : Datum Rat) : Prop where
  has_iff : ∀ s, a.Has s ↔ s ∈ Tree.names d
  valueAt_eq : ∀ x, a.valueAt x = value x d

theorem isEmpty_iff : a.coefs.isEmpty = true ↔ ∀ s, ¬a.Has s := by
  rw [List.isEmpty_iff, ← List.map_eq_nil_iff (f := (·.1)), List.eq_nil_iff_forall_not_mem]
  rfl

theorem Reads.isEmpty_eq {d : Datum Rat} (h : a.Reads d) : a.coefs.isEmpty = !isOpen d := by
  rw [isOpen, Bool.not_not, Bool.eq_iff_iff, isEmpty_iff, List.isEmpty_iff,
    List.eq_nil_iff_forall_not_mem]
  exact forall_congr' fun s => not_congr (h.has_iff s)

/-- An expression without variables has its constant as the value. -/
theorem valueAt_of_isEmpty (h : a.coefs.isEmpty = true) (x : String → Rat) :
    a.valueAt x = a.const := by
  rw [valueAt, List.isEmpty_iff.mp h, weighted_nil, zero_add]

/-- A product has the names of its factors, and its value is the product of theirs. -/
theorem of_times? (h : a.times? b = some c) :
    (a.coefs.isEmpty || b.coefs.isEmpty) = true ∧ (∀ s, c.Has s ↔ a.Has s ∨ b.Has s) ∧
      ∀ x, c.valueAt x = a.valueAt x * b.valueAt x := by
  unfold times? at h
  split at h
  · cases h
  · next hopen =>
    have hone : (a.coefs.isEmpty || b.coefs.isEmpty) = true := by
      simpa [Classical.or_iff_not_imp_left] using hopen
    refine ⟨hone, ?_⟩
    split at h
    · next ha =>
      obtain rfl := Option.some.inj h
      refine ⟨fun s => ?_, fun x => ?_⟩
      · rw [has_scale, or_iff_right (isEmpty_iff.mp ha s)]
      · rw [valueAt_scale, valueAt_of_isEmpty ha, mul_comm]
    · next ha =>
      obtain rfl := Option.some.inj h
      have hb : b.coefs.isEmpty = true := ((Bool.or_eq_true _ _).mp hone).resolve_left ha
      refine ⟨fun s => ?_, fun x => ?_⟩
      · rw [has_scale, or_iff_left (isEmpty_iff.mp hb s)]
      · rw [valueAt_scale, valueAt_of_isEmpty hb]

theorem exists_times? (h : (a.coefs.isEmpty || b.coefs.isEmpty) = true) :
    ∃ c, a.times? b = some c := by
  rw [times?, ← Bool.not_or, h, Bool.not_true, if_neg Bool.false_ne_true]
  split <;> exact ⟨_, rfl⟩

theorem isEmpty_of_times? (h : a.times? b = some c) :
    c.coefs.isEmpty = (a.coefs.isEmpty && b.coefs.isEmpty) := by
  obtain ⟨-, hhas, -⟩ := of_times? h
  rw [Bool.eq_iff_iff, Bool.and_eq_true]
  simp only [isEmpty_iff, hhas, not_or, forall_and]

end Affine

/-! ### What the reader finds -/

variable {rule : Datum Rat}

theorem reads_text {s : String} : (⟨[(s, 1)], 0⟩ : Affine Rat).Reads (.text s) where
  has_iff t := by simp [Affine.Has, names, eq_comm]
  valueAt_eq x := by simp [Affine.valueAt, value]

/-- A mapping with the one key `op` and a list of operands. -/
abbrev operation (op : String) (args : List (Datum Rat)) : Datum Rat :=
  .mapping [(.text op, .list args)]

theorem names_operation (op : String) (args : List (Datum Rat)) :
    names (operation op args) = args.flatMap names := by
  rw [names, nodeNames.eq_def]
  simp

section Operations

variable {a b c out : Affine Rat} {d e : Datum Rat} {args : List (Datum Rat)}

theorem reads_opposite (ha : a.Reads d) : (a.scale (-1)).Reads (operation "-" [d]) where
  has_iff s := by rw [Affine.has_scale, ha.has_iff, names_operation, List.flatMap_singleton]
  valueAt_eq x := by
    rw [Affine.valueAt_scale, ha.valueAt_eq, value, nodeValue, mul_neg_one]

theorem reads_difference (ha : a.Reads d) (hb : b.Reads e) :
    (a.add (b.scale (-1))).Reads (operation "-" [d, e]) where
  has_iff s := by
    rw [Affine.has_add, Affine.has_scale, ha.has_iff, hb.has_iff, names_operation]
    simp
  valueAt_eq x := by
    rw [Affine.valueAt_add, Affine.valueAt_scale, ha.valueAt_eq, hb.valueAt_eq, value, nodeValue,
      mul_neg_one, sub_eq_add_neg]

theorem reads_quotient (ha : a.Reads d) (hc : c.Reads e) (hempty : c.coefs.isEmpty = true) :
    (a.scale (1 / c.const)).Reads (operation "/" [d, e]) where
  has_iff s := by
    have hnames : names e = [] := by
      have hclosed := hc.isEmpty_eq
      rw [hempty, isOpen, Bool.not_not] at hclosed
      exact List.isEmpty_iff.mp hclosed.symm
    rw [Affine.has_scale, ha.has_iff, names_operation]
    simp [hnames]
  valueAt_eq x := by
    rw [Affine.valueAt_scale, ha.valueAt_eq, value, nodeValue, ← hc.valueAt_eq,
      Affine.valueAt_of_isEmpty hempty, mul_one_div]

variable (h : ∀ d ∈ args, ∀ a, linear rule d = .ok a → IsLinear d ∧ a.Reads d)

include h

/-- Adding up the summands from any start on. -/
theorem of_linearSum (hsum : linearSum rule out args = .ok a) :
    (∀ d ∈ args, IsLinear d) ∧ (∀ s, a.Has s ↔ out.Has s ∨ s ∈ args.flatMap names) ∧
      ∀ x, a.valueAt x = out.valueAt x + (args.map (value x)).sum := by
  induction args generalizing out with
  | nil =>
    obtain rfl := Except.ok.inj hsum
    simp
  | cons d args ih =>
    obtain ⟨hd, hargs⟩ := List.forall_mem_cons.mp h
    rw [linearSum, bind_eq_ok] at hsum
    obtain ⟨b, hb, hsum⟩ := hsum
    obtain ⟨hlinear, hreads⟩ := hd b hb
    obtain ⟨hall, hhas, hvalue⟩ := ih hargs hsum
    refine ⟨List.forall_mem_cons.mpr ⟨hlinear, hall⟩, fun s => ?_, fun x => ?_⟩
    · rw [hhas, Affine.has_add, hreads.has_iff, List.flatMap_cons, List.mem_append, or_assoc]
    · rw [hvalue, Affine.valueAt_add, hreads.valueAt_eq, List.map_cons, List.sum_cons, add_assoc]

/-- Multiplying the factors from any start on: a start with variables leaves no room for another
factor that has some. -/
theorem of_linearProduct (hprod : linearProduct rule out args = .ok a) :
    (∀ d ∈ args, IsLinear d) ∧ (!out.coefs.isEmpty).toNat + args.countP isOpen ≤ 1 ∧
      (∀ s, a.Has s ↔ out.Has s ∨ s ∈ args.flatMap names) ∧
      ∀ x, a.valueAt x = out.valueAt x * (args.map (value x)).prod := by
  induction args generalizing out with
  | nil =>
    obtain rfl := Except.ok.inj hprod
    exact ⟨List.forall_mem_nil _, Bool.toNat_le _, by simp, by simp⟩
  | cons d args ih =>
    obtain ⟨hd, hargs⟩ := List.forall_mem_cons.mp h
    rw [linearProduct, bind_eq_ok] at hprod
    obtain ⟨b, hb, hprod⟩ := hprod
    obtain ⟨hlinear, hreads⟩ := hd b hb
    split at hprod
    · next next hnext =>
      obtain ⟨hone, hnextHas, hnextValue⟩ := Affine.of_times? hnext
      obtain ⟨hall, hcount, hhas, hvalue⟩ := ih hargs hprod
      refine ⟨List.forall_mem_cons.mpr ⟨hlinear, hall⟩, ?_, fun s => ?_, fun x => ?_⟩
      · rw [Affine.isEmpty_of_times? hnext] at hcount
        rw [hreads.isEmpty_eq] at hone hcount
        rw [List.countP_cons]
        cases hout : out.coefs.isEmpty <;> cases hopen : isOpen d <;>
          simp [hout, hopen] at hone hcount ⊢ <;> omega
      · rw [hhas, hnextHas, hreads.has_iff, List.flatMap_cons, List.mem_append, or_assoc]
      · rw [hvalue, hnextValue, hreads.valueAt_eq, List.map_cons, List.prod_cons, mul_assoc]
    · cases hprod

end Operations

theorem of_linearNode {a : Affine Rat} {entries : List (Datum Rat × Datum Rat)}
    (h : ∀ k args, (k, .list args) ∈ entries → ∀ d ∈ args, ∀ a, linear rule d = .ok a →
      IsLinear d ∧ a.Reads d) (hnode : linearNode rule entries = .ok a) :
    IsLinear (.mapping entries) ∧ a.Reads (.mapping entries) := by
  unfold linearNode at hnode
  split at hnode
  · split at hnode
    · split at hnode
      · cases hnode
      · next s hs =>
        obtain rfl := Except.ok.inj hnode
        exact ⟨.var hs, reads_text.has_iff, reads_text.valueAt_eq⟩
    · cases hnode
  · next args =>
    obtain ⟨hargs, hhas, hvalue⟩ := of_linearSum (h _ args List.mem_cons_self) hnode
    refine ⟨.sum hargs, fun s => ?_, fun x => ?_⟩
    · rw [hhas, names_operation, or_iff_right (Affine.isEmpty_iff.mp rfl s)]
    · rw [hvalue, Affine.valueAt_of_isEmpty rfl, zero_add, value, nodeValue, valuesEach_eq]
  · next d =>
    obtain ⟨b, hb, hnode⟩ := bind_eq_ok.mp hnode
    obtain rfl := Except.ok.inj hnode
    obtain ⟨hlinear, hreads⟩ := h _ [d] List.mem_cons_self d (by simp) b hb
    exact ⟨.opposite hlinear, reads_opposite hreads⟩
  · next d e =>
    obtain ⟨b, hb, hnode⟩ := bind_eq_ok.mp hnode
    obtain ⟨c, hc, hnode⟩ := bind_eq_ok.mp hnode
    obtain rfl := Except.ok.inj hnode
    obtain ⟨hleft, hleftReads⟩ := h _ [d, e] List.mem_cons_self d (by simp) b hb
    obtain ⟨hright, hrightReads⟩ := h _ [d, e] List.mem_cons_self e (by simp) c hc
    exact ⟨.difference hleft hright, reads_difference hleftReads hrightReads⟩
  · cases hnode
  · next args =>
    obtain ⟨hargs, hcount, hhas, hvalue⟩ :=
      of_linearProduct (h _ args List.mem_cons_self) hnode
    refine ⟨.product hargs (by simpa using hcount), fun s => ?_, fun x => ?_⟩
    · rw [hhas, names_operation, or_iff_right (Affine.isEmpty_iff.mp rfl s)]
    · rw [hvalue, Affine.valueAt_of_isEmpty rfl, one_mul, value, nodeValue, valuesEach_eq]
  · next d e =>
    obtain ⟨c, hc, hnode⟩ := bind_eq_ok.mp hnode
    obtain ⟨hdivisor, hdivisorReads⟩ := h _ [d, e] List.mem_cons_self e (by simp) c hc
    split at hnode
    · cases hnode
    · next hopen =>
      split at hnode
      · cases hnode
      · next hzero =>
        obtain ⟨b, hb, hnode⟩ := bind_eq_ok.mp hnode
        obtain rfl := Except.ok.inj hnode
        obtain ⟨hlinear, hreads⟩ := h _ [d, e] List.mem_cons_self d (by simp) b hb
        have hempty : c.coefs.isEmpty = true := by simpa using hopen
        refine ⟨.quotient hlinear hdivisor ?_ fun x hx => hzero ?_,
          reads_quotient hreads hdivisorReads hempty⟩
        · rw [← Bool.not_eq_true', ← hdivisorReads.isEmpty_eq, hempty]
        · rw [← hdivisorReads.valueAt_eq, Affine.valueAt_of_isEmpty hempty] at hx
          exact beq_of_eq hx
  · cases hnode
  · split at hnode <;> cases hnode
  · cases hnode

/-- **What is read has the names and the values of the tree**, and only trees of the grammar are
read. -/
theorem reads_of_linear : ∀ {d : Datum Rat} {a : Affine Rat}, linear rule d = .ok a →
    IsLinear d ∧ a.Reads d
  | .text s, a, h => by
    rw [linear] at h
    split at h
    · cases h
    · next hs =>
      obtain rfl := Except.ok.inj h
      exact ⟨.name hs, reads_text⟩
  | .mapping entries, a, h => by
    rw [linear] at h
    refine of_linearNode (fun k args hargs d hd a ha => ?_) h
    have hlt := Datum.sizeOf_lt_of_item hargs hd
    exact reads_of_linear ha
  | .int n, a, h => by
    obtain rfl := Except.ok.inj h
    exact ⟨.int n, by simp [Affine.Has, names], fun x => zero_add _⟩
  | .real q, a, h => by
    obtain rfl := Except.ok.inj h
    exact ⟨.real q, by simp [Affine.Has, names], fun x => zero_add _⟩
  | .null, a, h => by cases h
  | .bool _, a, h => by cases h
  | .list _, a, h => by cases h
termination_by d => sizeOf d
decreasing_by assumption

/-! ### What the reader accepts -/

section Accepted

variable {args : List (Datum Rat)} (h : ∀ d ∈ args, ∃ a, linear rule d = .ok a)

include h

theorem exists_linearSum (out : Affine Rat) : ∃ a, linearSum rule out args = .ok a := by
  induction args generalizing out with
  | nil => exact ⟨out, rfl⟩
  | cons d args ih =>
    obtain ⟨⟨b, hb⟩, hargs⟩ := List.forall_mem_cons.mp h
    obtain ⟨a, ha⟩ := ih hargs (out.add b)
    exact ⟨a, by rw [linearSum, hb, ok_bind, ha]⟩

theorem exists_linearProduct {out : Affine Rat}
    (hopen : (!out.coefs.isEmpty).toNat + args.countP isOpen ≤ 1) :
    ∃ a, linearProduct rule out args = .ok a := by
  induction args generalizing out with
  | nil => exact ⟨out, rfl⟩
  | cons d args ih =>
    obtain ⟨⟨b, hb⟩, hargs⟩ := List.forall_mem_cons.mp h
    have hempty : b.coefs.isEmpty = !isOpen d := (reads_of_linear hb).2.isEmpty_eq
    rw [List.countP_cons] at hopen
    have hone : (out.coefs.isEmpty || b.coefs.isEmpty) = true := by
      cases hout : out.coefs.isEmpty <;> cases hd : isOpen d <;>
        simp [hempty, hout, hd] at hopen ⊢
    obtain ⟨next, hnext⟩ := Affine.exists_times? hone
    have hrest : (!next.coefs.isEmpty).toNat + args.countP isOpen ≤ 1 := by
      rw [Affine.isEmpty_of_times? hnext]
      cases hout : out.coefs.isEmpty <;> cases hd : isOpen d <;>
        simp [hempty, hout, hd] at hopen ⊢ <;> omega
    obtain ⟨a, ha⟩ := ih hargs hrest
    exact ⟨a, by rw [linearProduct, hb, ok_bind]; simp only [hnext, ha]⟩

end Accepted

/-- Every linear expression of the grammar is read. -/
theorem exists_linear {d : Datum Rat} (h : IsLinear d) : ∃ a, linear rule d = .ok a := by
  induction h with
  | int n => exact ⟨⟨[], n⟩, rfl⟩
  | real q => exact ⟨⟨[], q⟩, rfl⟩
  | @name s hs => exact ⟨⟨[(s, 1)], 0⟩, by rw [linear, if_neg hs]⟩
  | @var s hs => exact ⟨⟨[(s, 1)], 0⟩, by rw [linear, linearNode]; simp only [if_neg hs]⟩
  | sum hargs ih =>
    rw [linear, linearNode]
    exact exists_linearSum ih _
  | opposite ha ih =>
    obtain ⟨a, ha⟩ := ih
    exact ⟨a.scale (-1), by rw [linear, linearNode, ha]; rfl⟩
  | difference ha hb iha ihb =>
    obtain ⟨a, ha⟩ := iha
    obtain ⟨b, hb⟩ := ihb
    exact ⟨a.add (b.scale (-1)), by rw [linear, linearNode, ha, hb]; rfl⟩
  | product hargs hopen ih =>
    rw [linear, linearNode]
    exact exists_linearProduct ih (by simpa using hopen)
  | quotient ha hc hclosed hzero iha ihc =>
    obtain ⟨a, ha⟩ := iha
    obtain ⟨c, hc⟩ := ihc
    obtain ⟨-, hreads⟩ := reads_of_linear hc
    have hempty : c.coefs.isEmpty = true := by rw [hreads.isEmpty_eq, hclosed]; rfl
    have hconst : (c.const == 0) = false := by
      refine beq_false_of_ne fun h => hzero (fun _ => 0) ?_
      rw [← hreads.valueAt_eq, Affine.valueAt_of_isEmpty hempty, h]
    refine ⟨a.scale (1 / c.const), ?_⟩
    rw [linear, linearNode, hc, ok_bind, hempty, hconst, ha]
    rfl

/-- The reader accepts exactly the linear expressions of the grammar. -/
theorem exists_linear_iff {d : Datum Rat} : (∃ a, linear rule d = .ok a) ↔ IsLinear d :=
  ⟨fun ⟨_, h⟩ => (reads_of_linear h).1, exists_linear⟩

/-- Names in a linear expression are not empty. -/
theorem IsLinear.names_ne {d : Datum Rat} (h : IsLinear d) : ∀ s ∈ names d, s ≠ "" := by
  have hflat : ∀ op {args : List (Datum Rat)}, (∀ d ∈ args, ∀ s ∈ names d, s ≠ "") →
      ∀ s ∈ names (operation op args), s ≠ "" := by
    intro op args hargs s hs
    rw [names_operation] at hs
    obtain ⟨d, hd, hs⟩ := List.mem_flatMap.mp hs
    exact hargs d hd s hs
  induction h with
  | int n => exact List.forall_mem_nil _
  | real q => exact List.forall_mem_nil _
  | name hs => exact List.forall_mem_singleton.mpr hs
  | var hs => exact List.forall_mem_singleton.mpr hs
  | sum hargs ih => exact hflat "+" ih
  | opposite ha ih => exact hflat "-" (List.forall_mem_singleton.mpr ih)
  | difference ha hb iha ihb =>
    exact hflat "-" (List.forall_mem_cons.mpr ⟨iha, List.forall_mem_singleton.mpr ihb⟩)
  | product hargs hopen ih => exact hflat "*" ih
  | quotient ha hc hclosed hzero iha ihc =>
    exact hflat "/" (List.forall_mem_cons.mpr ⟨iha, List.forall_mem_singleton.mpr ihc⟩)

end RuleAudit.Tree
