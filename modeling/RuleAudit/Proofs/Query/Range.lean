import Mathlib.Algebra.Order.Field.Basic
import Mathlib.Data.Rat.Lemmas
import Mathlib.Order.Interval.Set.Defs
import Mathlib.Tactic.Positivity
import Mathlib.Tactic.Ring
import RuleAudit.Proofs.Query.Fixed
import RuleAudit.Proofs.Query.Hinted

/-!
# How far the other values are

A fixed number is one that an exact solver found for its variable, rounded to nine places, and all
other values that the variable has where the rules hold tightly are less than `epsilon` away.
Which value is found is up to the solver, so the report depends on it; but a variable whose values
are close to each other is reported whichever of them is found, and one whose values spread over
`2 * epsilon` is not. A label is reported exactly when the variable has no other value
(`Oracle.exists_fixed_range`).

The part about numbers rests on two facts: rounding moves a number by half of the last place at
most, and the two probes together exclude exactly what is `epsilon` or more away.
-/

namespace RuleAudit

/-! ### Rounding -/

/-- A rounded quotient is off by half of the divisor at most. -/
theorem divHalfEven_spec (num : Nat) {den : Nat} (hden : 0 < den) :
    2 * num ≤ (2 * divHalfEven num den + 1) * den ∧
      2 * divHalfEven num den * den ≤ 2 * num + den := by
  have hsplit : den * (num / den) + num % den = num := Nat.div_add_mod num den
  have hlt : num % den < den := Nat.mod_lt num hden
  have hdown : 2 * (num / den) * den = 2 * (den * (num / den)) := by ring
  have hup : 2 * (num / den + 1) * den = 2 * (den * (num / den)) + 2 * den := by ring
  simp only [divHalfEven, Nat.add_mul, Nat.one_mul]
  split
  · omega
  · split
    · omega
    · split
      · omega
      · omega

/-- Without its sign, a rational is rounded to a natural that is at most a half away. -/
theorem abs_divHalfEven_sub_le (x : Rat) :
    |(divHalfEven x.num.natAbs x.den : Rat) - (|x|)| ≤ 1 / 2 := by
  have hden : (0 : Rat) < x.den := Nat.cast_pos.mpr x.den_pos
  have hnum : |x| * x.den = x.num.natAbs := by
    rw [Nat.cast_natAbs, Int.cast_abs, ← Rat.mul_den_eq_num, abs_mul, abs_of_pos hden]
  obtain ⟨hbelow, habove⟩ := divHalfEven_spec x.num.natAbs x.den_pos
  generalize divHalfEven x.num.natAbs x.den = n at hbelow habove ⊢
  have hbelow : 2 * (|x| * x.den) ≤ (2 * n + 1) * x.den := by
    rw [hnum]
    exact_mod_cast hbelow
  have habove : 2 * n * x.den ≤ 2 * (|x| * x.den) + x.den := by
    rw [hnum]
    exact_mod_cast habove
  rw [abs_le]
  constructor
  · have h : 2 * |x| ≤ 2 * n + 1 := le_of_mul_le_mul_right (by linarith) hden
    linarith
  · have h : 2 * (n : Rat) ≤ 2 * |x| + 1 := le_of_mul_le_mul_right (by linarith) hden
    linarith

/-- Rounding moves a number by a half at most. -/
theorem abs_roundHalfEven_sub_le (x : Rat) : |(roundHalfEven x : Rat) - x| ≤ 1 / 2 := by
  have h := abs_divHalfEven_sub_le x
  rw [roundHalfEven]
  split
  · next hneg =>
    have hx : |x| = -x := abs_of_neg (Rat.num_neg.mp hneg)
    rw [hx, ← abs_neg] at h
    push_cast
    convert h using 2
    ring
  · next hnonneg =>
    have hx : |x| = x := abs_of_nonneg (Rat.num_nonneg.mp (not_lt.mp hnonneg))
    rwa [hx] at h

/-- Rounding to decimals moves a number by half of the last place at most. -/
theorem abs_roundPlaces_sub_le (places : Nat) (x : Rat) :
    |roundPlaces places x - x| ≤ 1 / 2 / 10 ^ places := by
  have hscale : (0 : Rat) < 10 ^ places := by positivity
  have hround : roundPlaces places x = roundHalfEven (x * 10 ^ places) / 10 ^ places := by
    rw [roundPlaces, Nat.pow_eq, Nat.cast_pow, Nat.cast_ofNat]
  calc |roundPlaces places x - x|
      = |((roundHalfEven (x * 10 ^ places) : Rat) - x * 10 ^ places) / 10 ^ places| := by
        rw [hround, sub_div, mul_div_cancel_right₀ x hscale.ne']
    _ = |(roundHalfEven (x * 10 ^ places) : Rat) - x * 10 ^ places| / 10 ^ places := by
        rw [abs_div, abs_of_pos hscale]
    _ ≤ 1 / 2 / 10 ^ places := by
        gcongr
        exact abs_roundHalfEven_sub_le _

/-! ### Values of a variable -/

/-- The numbers that a variable has where rules hold tightly. -/
def tightNumbers (settings : Settings Rat) (rules : List (Rule Rat)) (n : String) : Set Rat :=
  {x | ∃ v, Admissible settings rules v ∧ v.number n = x}

/-- The labels that a variable has where rules hold tightly, or none. -/
def tightLabels (settings : Settings Rat) (rules : List (Rule Rat)) (n : String) :
    Set (Option String) :=
  {l | ∃ v, Admissible settings rules v ∧ v.label n = l}

namespace Oracle

variable {o : Oracle Rat} {L : Lexicon} {s : RuleSet Rat} {n : String}
  (hsolver : o.solver.Exact o.settings) (hL : L.Apart) (hfits : ∀ r ∈ s.rules, r.Fits L)

include hsolver hL hfits

/-- Both probes of a number fail exactly when no value is `epsilon` or more away. -/
theorem isFixed_number_iff (hu : (n, .numeric) ∈ usesIn s.rules) (x : Rat) :
    o.isFixed s n (.number x) = true ↔ tightNumbers o.settings s.rules n ⊆
      Set.Ioo (x - o.settings.epsilon.value) (x + o.settings.epsilon.value) := by
  have hsuits : (FixedValue.number x).Suits L n := by
    refine ⟨kind_of_mem_usesIn hfits hu, ?_⟩
    intro l hl
    cases hl
  rw [isFixed_iff hsolver hfits hL (ne_empty_of_mem_usesIn hu) hsuits]
  constructor
  · rintro hclose y ⟨v, hv, rfl⟩
    have hnear := hclose v hv
    rw [FixedValue.IsAway, not_or, not_le, not_le] at hnear
    exact hnear
  · intro hsubset v hv haway
    obtain ⟨hbelow, habove⟩ := hsubset ⟨v, hv, rfl⟩
    rcases haway with haway | haway
    · exact absurd haway (not_le.mpr hbelow)
    · exact absurd haway (not_le.mpr habove)

/-- The probe of a label fails exactly when the variable has no other value. -/
theorem isFixed_label_iff (hu : (n, .categorical) ∈ usesIn s.rules) {l : String}
    (hmentioned : L.mentions n l) :
    o.isFixed s n (.label l) = true ↔ tightLabels o.settings s.rules n ⊆ {some l} := by
  have hsuits : (FixedValue.label l : FixedValue Rat).Suits L n := by
    refine ⟨kind_of_mem_usesIn hfits hu, ?_⟩
    intro k hk
    obtain rfl := FixedValue.label.inj hk
    exact hmentioned
  rw [isFixed_iff hsolver hfits hL (ne_empty_of_mem_usesIn hu) hsuits]
  constructor
  · rintro hsame k ⟨v, hv, rfl⟩
    exact not_not.mp (hsame v hv)
  · intro hsubset v hv haway
    exact haway (hsubset ⟨v, hv, rfl⟩)

variable {v : Valuation} {fixed : List (String × FixedValue Rat)} (hfixes : o.Fixes s v fixed)

include hfixes

/-- A number is reported when all values are close to the one that was found, rounded. -/
theorem number_mem_fixed_iff {x : Rat} : (n, .number x) ∈ fixed ↔
    (n, .numeric) ∈ usesIn s.rules ∧ x = roundPlaces 9 (v.number n) ∧
      tightNumbers o.settings s.rules n ⊆
        Set.Ioo (x - o.settings.epsilon.value) (x + o.settings.epsilon.value) := by
  rw [hfixes.mem_iff]
  constructor
  · rintro ⟨kind, hu, hcandidate, hfixed⟩
    cases kind with
    | numeric =>
      obtain rfl := FixedValue.number.inj (Option.some.inj hcandidate)
      exact ⟨hu, rfl, (isFixed_number_iff hsolver hL hfits hu _).mp hfixed⟩
    | categorical =>
      rw [v.candidate?_categorical] at hcandidate
      obtain ⟨l, -, hl⟩ := Option.map_eq_some_iff.mp hcandidate
      cases hl
  · rintro ⟨hu, rfl, hsubset⟩
    exact ⟨.numeric, hu, rfl, (isFixed_number_iff hsolver hL hfits hu _).mpr hsubset⟩

/-- A label is reported when the variable has no other value. -/
theorem label_mem_fixed_iff {l : String} : (n, .label l) ∈ fixed ↔
    (n, .categorical) ∈ usesIn s.rules ∧ tightLabels o.settings s.rules n = {some l} := by
  have hfound : v.label n ∈ tightLabels o.settings s.rules n := ⟨v, hfixes.admissible, rfl⟩
  have hmentions : v.label n = some l → L.mentions n l := fun hlabel =>
    Mentioned.of_fits hfits (hfixes.mentioned n l hlabel)
  rw [hfixes.mem_iff]
  constructor
  · rintro ⟨kind, hu, hcandidate, hfixed⟩
    cases kind with
    | numeric => cases hcandidate
    | categorical =>
      have hlabel : v.label n = some l := by
        rw [v.candidate?_categorical] at hcandidate
        obtain ⟨k, hk, hkl⟩ := Option.map_eq_some_iff.mp hcandidate
        rwa [FixedValue.label.inj hkl] at hk
      have hsubset := (isFixed_label_iff hsolver hL hfits hu (hmentions hlabel)).mp hfixed
      refine ⟨hu, hsubset.antisymm ?_⟩
      rw [Set.singleton_subset_iff, ← hlabel]
      exact hfound
  · rintro ⟨hu, hvalues⟩
    have hlabel : v.label n = some l := by
      rw [hvalues] at hfound
      exact hfound
    refine ⟨.categorical, hu, ?_, ?_⟩
    · rw [v.candidate?_categorical, hlabel]
      rfl
    · exact (isFixed_label_iff hsolver hL hfits hu (hmentions hlabel)).mpr hvalues.subset

end Oracle

/-- **A reported number is the only one up to `epsilon`, and whatever has one value is reported.**
Where the rules of a feasible set hold tightly, a reported number is less than `epsilon` away from
all numbers of its variable. A variable is reported when its numbers are closer to each other than a
distance that is smaller than `epsilon` by more than the last of nine decimals, and it is not when
two of them are `2 * epsilon` apart. A label is reported exactly when its variable has no other
value, and then some rule mentions it. -/
theorem Oracle.exists_fixed_range (o : Oracle Rat) (s : RuleSet Rat)
    (hrules : KindConsistent s.rules)
    (hnames : ∀ p, Program.ofRules s.rules o.settings = .ok p → (p.vars.map (·.name)).Nodup)
    (hsolver : o.solver.Exact o.settings) (hfeasible : o.isFeasible s = .ok true) :
    ∃ fixed, (o.fixed s).outcome = .ok fixed ∧ (fixed.map (·.1)).Nodup ∧
      (∀ n w, (n, .number w) ∈ fixed → tightNumbers o.settings s.rules n ⊆
        Set.Ioo (w - o.settings.epsilon.value) (w + o.settings.epsilon.value)) ∧
      (∀ n, (n, .numeric) ∈ usesIn s.rules → ∀ d, d + 1 / 10 ^ 9 < o.settings.epsilon.value →
        (∀ x ∈ tightNumbers o.settings s.rules n, ∀ y ∈ tightNumbers o.settings s.rules n,
          |x - y| < d) → ∃ w, (n, .number w) ∈ fixed) ∧
      (∀ n, ∀ x ∈ tightNumbers o.settings s.rules n, ∀ y ∈ tightNumbers o.settings s.rules n,
        2 * o.settings.epsilon.value ≤ |x - y| → ∀ w, (n, .number w) ∉ fixed) ∧
      (∀ n, (n, .categorical) ∈ usesIn s.rules → ∀ l, (n, .label l) ∈ fixed ↔
        tightLabels o.settings s.rules n = {some l}) ∧
      (∀ n l, (n, .label l) ∈ fixed → Mentioned s.rules n l) := by
  obtain ⟨L, hL, hfits, -⟩ := hrules.exists_apart hnames
  obtain ⟨-, fixed, v, -, hfixed, hfixes, -⟩ := exists_fixes hsolver hfits hfeasible
  have hrange : ∀ n w, (n, .number w) ∈ fixed → tightNumbers o.settings s.rules n ⊆
      Set.Ioo (w - o.settings.epsilon.value) (w + o.settings.epsilon.value) := by
    intro n w hw
    exact ((number_mem_fixed_iff hsolver hL hfits hfixes).mp hw).2.2
  refine ⟨fixed, hfixed, hfixes.nodup, hrange, ?_, ?_, ?_, ?_⟩
  · intro n hu d hd hclose
    have hround := abs_roundPlaces_sub_le 9 (v.number n)
    refine ⟨_, (number_mem_fixed_iff hsolver hL hfits hfixes).mpr ⟨hu, rfl, ?_⟩⟩
    intro y hy
    have hnear : |y - v.number n| < d := hclose y hy _ ⟨v, hfixes.admissible, rfl⟩
    rw [abs_le] at hround
    rw [abs_lt] at hnear
    constructor
    · linarith
    · linarith
  · intro n x hx y hy hspread w hw
    obtain ⟨hxBelow, hxAbove⟩ := hrange n w hw hx
    obtain ⟨hyBelow, hyAbove⟩ := hrange n w hw hy
    have hclose : |x - y| < 2 * o.settings.epsilon.value := by
      rw [abs_lt]
      constructor
      · linarith
      · linarith
    exact absurd hspread (not_le.mpr hclose)
  · intro n hu l
    rw [label_mem_fixed_iff hsolver hL hfits hfixes, and_iff_right hu]
  · intro n l hl
    have hvalues := ((label_mem_fixed_iff hsolver hL hfits hfixes).mp hl).2
    have hfound : v.label n ∈ tightLabels o.settings s.rules n := ⟨v, hfixes.admissible, rfl⟩
    rw [hvalues] at hfound
    exact hfixes.mentioned n l hfound

/-- A number between bounds that are half of `epsilon` apart is reported, and so is the only
label. -/
theorem Oracle.exists_fixed_range_narrow :
    let least : Rule Rat := ⟨"least", .atom (.linear (.canonical [(⟨"x", by decide⟩, 1)] .ge 1)),
      none, by decide +kernel, by simp, none⟩
    let most : Rule Rat := ⟨"most", .atom (.linear (.canonical [(⟨"x", by decide⟩, 1)] .le
      (10005 / 10000))), none, by decide +kernel, by simp, none⟩
    let paint : Rule Rat := ⟨"paint", .atom (.membership (.ofLabels ⟨"color", by decide⟩ ["red"]
      false)), none, by decide +kernel, by simp, none⟩
    let s : RuleSet Rat := ⟨[least, most, paint], by decide⟩
    let solver := Solver.hinted [[("num[x]", 10003 / 10000), ("cat[color=red]", 1),
      ("cat[color]*", 0)]]
    KindConsistent s.rules ∧ ∃ settings, Settings.default = .ok settings ∧
      (∃ p, Program.ofRules s.rules settings = .ok p ∧ (p.vars.map (·.name)).Nodup) ∧
      solver.Exact settings ∧ Oracle.isFeasible ⟨solver, settings⟩ s = .ok true ∧
      ∃ fixed, (Oracle.fixed ⟨solver, settings⟩ s).outcome = .ok fixed ∧
        (∃ w, ("x", .number w) ∈ fixed) ∧ ("color", .label "red") ∈ fixed := by
  intro least most paint s solver
  have hkinds : KindConsistent s.rules := by decide +kernel
  have hsome : (Settings.default (K := Rat)).toOption.any (fun settings =>
      decide (settings.epsilon.value = 1 / 1000) &&
        decide ((Oracle.isFeasible ⟨solver, settings⟩ s).toOption = some true) &&
        (Program.ofRules s.rules settings).toOption.any fun p =>
          decide (p.vars.map (·.name)).Nodup) = true := by
    decide +kernel
  obtain ⟨settings, hsettings, hall⟩ := Outcome.exists_of_any_toOption hsome
  simp only [Bool.and_eq_true, decide_eq_true_eq] at hall
  obtain ⟨⟨hepsilon, hfeasible⟩, hprogram⟩ := hall
  have hfeasible := Outcome.eq_ok_of_toOption hfeasible
  obtain ⟨p, hp, hnames⟩ := Outcome.exists_of_any_toOption hprogram
  have hsolver : solver.Exact settings := Solver.hinted_exact _ settings
  have hbounds : ∀ x ∈ tightNumbers settings s.rules "x", 1 ≤ x ∧ x ≤ 10005 / 10000 := by
    rintro x ⟨v, hv, rfl⟩
    have hleast := (hv.tight least (by simp [s])).eval
    have hmost := (hv.tight most (by simp [s])).eval
    rw [Expr.eval, Clause.eval_single, Comparison.exact_eq] at hleast hmost
    exact ⟨of_decide_eq_true hleast, of_decide_eq_true hmost⟩
  have hlabels : tightLabels settings s.rules "color" = {some "red"} := by
    have hred : ∀ v, Admissible settings s.rules v → v.label "color" = some "red" := by
      intro v hv
      have hlabel :
          ((FixedValue.label "red").clause ⟨"color", by decide⟩).eval (.margin 0) v = true ↔
            v.label "color" = some "red" :=
        FixedValue.eval_clause 0 v
      exact hlabel.mp (hv.tight paint (by simp [s])).eval
    obtain ⟨v, hv⟩ := Oracle.satisfiable_of_verdict (o := ⟨solver, settings⟩) hsolver hkinds
      (Oracle.verdict_of_isFeasible hfeasible)
    ext l
    constructor
    · rintro ⟨w, hw, rfl⟩
      exact hred w hw
    · rintro rfl
      exact ⟨v, hv, hred v hv⟩
  obtain ⟨fixed, hfixed, -, -, hclose, -, hlabel, -⟩ :=
    Oracle.exists_fixed_range ⟨solver, settings⟩ s hkinds (fun q hq => by
      obtain rfl := Except.ok.inj (hp.symm.trans hq)
      exact of_decide_eq_true hnames) hsolver hfeasible
  refine ⟨hkinds, settings, hsettings, ⟨p, hp, of_decide_eq_true hnames⟩, hsolver, hfeasible,
    fixed, hfixed, ?_, (hlabel "color" (by decide +kernel) "red").mpr hlabels⟩
  refine hclose "x" (by decide +kernel) (6 / 10000) (by rw [hepsilon]; norm_num) ?_
  intro x hx y hy
  obtain ⟨hxLow, hxHigh⟩ := hbounds x hx
  obtain ⟨hyLow, hyHigh⟩ := hbounds y hy
  rw [abs_lt]
  constructor
  · linarith
  · linarith

end RuleAudit
