/-!
# Linear inequalities over rationals

A system asks for a point in a box that satisfies linear inequalities. It is decided by eliminating
one variable after the other: every lower bound on a variable must be at most every upper bound on
it, which is a system in the variables that are left. Going back, each variable takes a value
between its bounds.

Coefficients are lists, one entry a variable; entries that a list does not reach are zero.
-/

namespace RuleAudit.Elimination

/-- The smaller one of two numbers. -/
def lesser (a b : Rat) : Rat :=
  if a ≤ b then a else b

/-- The larger one of two numbers. -/
def greater (a b : Rat) : Rat :=
  if a ≤ b then b else a

/-! ### Linear forms -/

/-- The sum of the products, place by place. -/
def dot : List Rat → List Rat → Rat
  | a :: as, x :: xs => a * x + dot as xs
  | _, _ => 0

/-- The difference, place by place. -/
def sub : List Rat → List Rat → List Rat
  | a :: as, b :: bs => (a - b) :: sub as bs
  | as, [] => as
  | [], bs => bs.map (- ·)

/-- `coefs · x + constant`. -/
structure Form where
  coefs : List Rat
  constant : Rat

/-- The value of a form at a point. -/
def Form.eval (f : Form) (x : List Rat) : Rat :=
  dot f.coefs x + f.constant

/-- `coefs · x ≤ bound`. -/
structure Inequality where
  coefs : List Rat
  bound : Rat

/-! ### Intervals -/

/-- The values between two ends; an end that is missing is infinite. -/
structure Interval where
  lower : Option Rat := none
  upper : Option Rat := none

namespace Interval

/-- All numbers. -/
def all : Interval :=
  {}

/-- No number. -/
def empty : Interval :=
  ⟨some 1, some 0⟩

/-- One number. -/
def single (x : Rat) : Interval :=
  ⟨some x, some x⟩

/-- The numbers of the interval that are at most `b`. -/
def atMost (i : Interval) (b : Rat) : Interval :=
  { i with upper := some (match i.upper with | some u => lesser u b | none => b) }

/-- The numbers of the interval that are at least `b`. -/
def atLeast (i : Interval) (b : Rat) : Interval :=
  { i with lower := some (match i.lower with | some l => greater l b | none => b) }

/-- No number is in the interval. -/
def isEmpty (i : Interval) : Bool :=
  match i.lower, i.upper with
  | some l, some u => decide (u < l)
  | _, _ => false

/-- The only number in the interval. -/
def value? (i : Interval) : Option Rat :=
  match i.lower, i.upper with
  | some l, some u => if l = u then some l else none
  | _, _ => none

/-- Some number in the interval, if it has one. -/
def sample (i : Interval) : Rat :=
  match i.lower, i.upper with
  | some l, _ => l
  | none, some u => u
  | none, none => 0

/-- The end at which a multiple by `a` is least. -/
def least (i : Interval) (a : Rat) : Option Rat :=
  if a < 0 then i.upper else i.lower

/-- The end at which a multiple by `a` is greatest. -/
def greatest (i : Interval) (a : Rat) : Option Rat :=
  if a < 0 then i.lower else i.upper

end Interval

/-! ### Simplifying a system -/

/-- The variables' intervals, and inequalities between several variables. -/
structure System where
  box : List Interval
  rows : List Inequality

/-- The greatest value of a form in a box, if it is bounded there. -/
def supremum? : List Rat → List Interval → Option Rat
  | [], _ => some 0
  | a :: as, box =>
    if a = 0 then supremum? as box.tail
    else do
      let x ← (box.headD .all).greatest a
      return a * x + (← supremum? as box.tail)

/-- The only variable that a form depends on, with its coefficient. -/
def singleVar? : List Rat → Option (Nat × Rat)
  | [] => none
  | a :: as =>
    if a = 0 then (singleVar? as).map fun (i, b) => (i + 1, b)
    else if as.all (· = 0) then some (0, a) else none

/-- The inequality divided by the magnitude of its first coefficient. -/
def Inequality.scaled (q : Inequality) : Inequality :=
  match q.coefs.find? (· ≠ 0) with
  | some a => let s := if a < 0 then -a else a; ⟨q.coefs.map (· / s), q.bound / s⟩
  | none => q

/-- Add an inequality to a list; of two with the same left side the sharper one is kept. -/
def insertRow (q : Inequality) : List Inequality → List Inequality
  | [] => [q]
  | r :: rest =>
    if r.coefs = q.coefs then ⟨r.coefs, lesser r.bound q.bound⟩ :: rest else r :: insertRow q rest

/-- Put one inequality into a system: one on a single variable sharpens its interval, and one on
no variable is decided. -/
def System.add (s : System) (q : Inequality) : Option System :=
  match singleVar? q.coefs with
  | some (i, a) =>
    let interval := s.box.getD i .all
    let interval := if a < 0 then interval.atLeast (q.bound / a) else interval.atMost (q.bound / a)
    if interval.isEmpty then none else some { s with box := s.box.set i interval }
  | none =>
    if q.coefs.all (· = 0) then (if q.bound < 0 then none else some s)
    else some { s with rows := insertRow q.scaled s.rows }

/-- The box implies an inequality. -/
def isImplied (box : List Interval) (q : Inequality) : Bool :=
  match supremum? q.coefs box with
  | some m => decide (m ≤ q.bound)
  | none => false

/-- The system of some inequalities in a box, if no inequality fails on its own. -/
def System.make (box : List Interval) (rows : List Inequality) : Option System := do
  if box.any (·.isEmpty) then none
  else
    let s ← rows.foldlM System.add ⟨box, []⟩
    return { s with rows := s.rows.filter fun q => !isImplied s.box q }

/-! ### Elimination -/

/-- The bounds on one variable, as forms in the later variables. -/
structure Level where
  lowers : List Form
  uppers : List Form

/-- The bound on the first variable that an inequality gives. -/
def boundOf (a : Rat) (q : Inequality) : Form :=
  ⟨q.coefs.tail.map (- · / a), q.bound / a⟩

/-- The bounds that the rows give from below. -/
def rowLowers (rows : List Inequality) : List Form :=
  rows.filterMap fun q => match q.coefs with
    | a :: _ => if a < 0 then some (boundOf a q) else none
    | [] => none

/-- The bounds that the rows give from above. -/
def rowUppers (rows : List Inequality) : List Form :=
  rows.filterMap fun q => match q.coefs with
    | a :: _ => if 0 < a then some (boundOf a q) else none
    | [] => none

/-- All bounds on the first variable. -/
def System.level (s : System) : Level :=
  let interval := s.box.headD .all
  ⟨(interval.lower.map (⟨[], ·⟩)).toList ++ rowLowers s.rows,
    (interval.upper.map (⟨[], ·⟩)).toList ++ rowUppers s.rows⟩

/-- A lower bound is at most an upper bound. -/
def between (l u : Form) : Inequality :=
  ⟨sub l.coefs u.coefs, u.constant - l.constant⟩

/-- The inequalities that are left when the first variable is eliminated. -/
def System.rest (s : System) : List Inequality :=
  let level := s.level
  (s.rows.filter fun q => q.coefs.headD 0 = 0).map (fun q => ⟨q.coefs.tail, q.bound⟩) ++
    level.lowers.flatMap fun l => level.uppers.map fun u => between l u

/-- Eliminate `n` variables; nothing when the system has no point. -/
def levels? : Nat → System → Option (List Level)
  | 0, s => if s.rows.all fun q => decide (0 ≤ q.bound) then some [] else none
  | n + 1, s => do
    let next ← System.make s.box.tail s.rest
    return s.level :: (← levels? n next)

/-- A value between the bounds at a point: the greatest lower bound if there is one. -/
def Level.pick (l : Level) (x : List Rat) : Rat :=
  match l.lowers.map (·.eval x) with
  | b :: bs => bs.foldl greater b
  | [] => match l.uppers.map (·.eval x) with
    | b :: bs => bs.foldl lesser b
    | [] => 0

/-- The point that the levels give, from the last variable to the first. -/
def pickAll (levels : List Level) : List Rat :=
  levels.foldr (fun l x => l.pick x :: x) []

/-- A point of a box that satisfies some inequalities. -/
def point? (box : List Interval) (rows : List Inequality) : Option (List Rat) := do
  let s ← System.make box rows
  return pickAll (← levels? box.length s)

/-- What is known of the least value of a form. -/
inductive Minimum where
  | empty
  | unbounded
  | attained (point : List Rat) (value : Rat)

/-- The least value of a form in a box under some inequalities. A further variable, eliminated
last, stands for the value. -/
def minimum (box : List Interval) (rows : List Inequality) (objective : List Rat) : Minimum :=
  let n := box.length
  let pad := objective ++ List.replicate (n - objective.length) 0
  let goal : Inequality := ⟨pad ++ [-1], 0⟩
  match System.make (box ++ [.all]) (goal :: rows) with
  | none => .empty
  | some s => match levels? (n + 1) s with
    | none => .empty
    | some levels =>
      if (levels.getLast?.map (·.lowers.isEmpty)).getD true then .unbounded
      else
        let x := pickAll levels
        .attained (x.take n) (x.getD n 0)

end RuleAudit.Elimination
