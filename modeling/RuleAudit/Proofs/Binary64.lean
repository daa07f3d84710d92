import Mathlib
import RuleAudit.Proofs.Scalar

/-!
# Doubles obey the laws

A double is a pattern of bits, and operations on doubles unpack the patterns, compute on signs,
mantissas and exponents, round, and pack the result. Packing and unpacking undo each other, and a
mantissa that is multiplied by one is only shifted to and fro, so nothing is rounded where
`Scalar.Lawful` says so.
-/

namespace RuleAudit

namespace Binary64

open Float.Model (Format UnpackedFloat totalExponent)
open Float.Model.UnpackedFloat

/-! ### Packing -/

/-- Every bit pattern consists of a sign, an exponent and a mantissa. -/
theorem exists_packComponents (b : BitVec Format.binary64.numBits) :
    ∃ s e m, b = packComponents Format.binary64 s e m :=
  ⟨_, _, _, (packComponents_unpackSign_unpackExponent_unpackMantissa b).symm⟩

theorem toNat_hiddenBit (m : BitVec 52) : (1#1 ++ m).toNat = 2 ^ 52 + m.toNat := by
  rw [BitVec.toNat_append, ← Nat.shiftLeft_add_eq_or_of_lt m.isLt]
  rfl

theorem finite_congr {s : Sign} {m m' : Nat} {e e' : Int} {h h'} (hm : m = m') (he : e = e') :
    UnpackedFloat.finite s m e h = .finite s m' e' h' := by
  subst hm he
  rfl

theorem toNat_pos {m : BitVec 52} (h : m ≠ 0#52) : 0 < m.toNat := by
  rwa [BitVec.toNat_pos, BitVec.pos_iff_ne_zero]

theorem unpack_special (s : Sign) (m : BitVec 52) :
    unpack Format.binary64 (packComponents Format.binary64 s (-1#11) m) =
      if m = 0#52 then .infinity s else .notANumber := by
  simp [unpack]

theorem unpack_zero (s : Sign) :
    unpack Format.binary64 (packComponents Format.binary64 s 0#11 0#52) = .zero s := by
  cases s <;> rfl

theorem unpack_subnormal (s : Sign) {m : BitVec 52} (hm : m ≠ 0#52) :
    unpack Format.binary64 (packComponents Format.binary64 s 0#11 m) =
      .finite s m.toNat (-1074) (toNat_pos hm) := by
  simp only [unpack, unpackExponent_packComponents, unpackMantissa_packComponents,
    unpackSign_packComponents, Sign.ofBitVec_toBitVec]
  rw [if_neg (by decide), if_pos trivial, dif_neg hm]
  exact finite_congr rfl rfl

theorem unpack_normal (s : Sign) {e : BitVec 11} (m : BitVec 52) (h0 : e ≠ 0#11) (h1 : e ≠ -1#11) :
    unpack Format.binary64 (packComponents Format.binary64 s e m) =
      .finite s (2 ^ 52 + m.toNat) (e.toNat - 1075) (by omega) := by
  simp only [unpack, unpackExponent_packComponents, unpackMantissa_packComponents,
    unpackSign_packComponents, Sign.ofBitVec_toBitVec]
  rw [if_neg h1, if_neg h0]
  exact finite_congr (toNat_hiddenBit m) rfl

theorem pack_subnormal (s : Sign) {m : Nat} (h : 0 < m) (hm : m < 2 ^ 52) :
    pack Format.binary64 (.finite s m (-1074) h) =
      packComponents Format.binary64 s 0#11 (.ofNat 52 m) := by
  have hlog : m.log2 < 52 := (Nat.log2_lt h.ne').mpr hm
  have hbits : ¬m.log2 + 1 = 53 := by omega
  exact if_neg hbits

theorem pack_normal (s : Sign) {m : Nat} {e : Int} {h : 0 < m} (hm : 2 ^ 52 ≤ m) (hm' : m < 2 ^ 53)
    (he : e ≤ 971) :
    pack Format.binary64 (.finite s m e h) =
      packComponents Format.binary64 s (.ofNat 11 (e + 1075).toNat) (.ofNat 52 m) := by
  have hlog : m.log2 + 1 = 53 := by
    have hlow : 52 ≤ m.log2 := (Nat.le_log2 h.ne').mpr hm
    have hhigh : m.log2 < 53 := (Nat.log2_lt h.ne').mpr hm'
    omega
  have hexponent : (e + (Format.binary64.exponentBias : Nat) + (52 : Nat)).toNat =
      (e + 1075).toNat := by
    have hbias : ((Format.binary64.exponentBias : Nat) : Int) = 1023 := rfl
    omega
  have hfits : ¬2 ^ 11 ≤ (e + 1075).toNat + 1 := by omega
  simp only [pack, hexponent]
  rw [if_neg hfits]
  exact if_pos hlog

/-- A value as doubles have it: a normal one uses all bits of the mantissa, a subnormal one has the
least exponent. -/
def IsCanonical : UnpackedFloat → Prop
  | .finite _ m e _ => m < 2 ^ 53 ∧ e ≤ 971 ∧ (2 ^ 52 ≤ m ∧ -1074 ≤ e ∨ e = -1074)
  | _ => True

theorem isCanonical_unpack (b : BitVec Format.binary64.numBits) :
    IsCanonical (unpack Format.binary64 b) := by
  obtain ⟨s, e, m, rfl⟩ := exists_packComponents b
  have hm : m.toNat < 2 ^ 52 := m.isLt
  have he : e.toNat < 2 ^ 11 := e.isLt
  by_cases h1 : e = -1#11
  · rw [h1, unpack_special]
    split <;> trivial
  by_cases h0 : e = 0#11
  · by_cases hzero : m = 0#52
    · rw [h0, hzero, unpack_zero]
      trivial
    · rw [h0, unpack_subnormal s hzero]
      exact ⟨by omega, by omega, .inr rfl⟩
  · rw [unpack_normal s m h0 h1]
    have hne0 : e.toNat ≠ 0 := fun h => h0 (BitVec.eq_of_toNat_eq h)
    have hne1 : e.toNat ≠ 2 ^ 11 - 1 := fun h => h1 (BitVec.eq_of_toNat_eq h)
    exact ⟨by omega, by omega, .inl ⟨by omega, by omega⟩⟩

theorem unpack_pack {u : UnpackedFloat} (h : IsCanonical u) :
    unpack Format.binary64 (pack Format.binary64 u) = u := by
  cases u with
  | notANumber => rfl
  | infinity s => cases s <;> rfl
  | zero s => cases s <;> rfl
  | finite s m e hm =>
    obtain ⟨hmantissa, hexponent, hform⟩ := h
    by_cases hnormal : 2 ^ 52 ≤ m
    · have hlow : -1074 ≤ e := by omega
      have hbits : (BitVec.ofNat 11 (e + 1075).toNat).toNat = (e + 1075).toNat := by
        rw [BitVec.toNat_ofNat]
        omega
      rw [pack_normal s hnormal hmantissa hexponent, unpack_normal]
      · refine finite_congr ?_ ?_
        · rw [BitVec.toNat_ofNat]
          omega
        · omega
      · intro h
        have := congrArg BitVec.toNat h
        rw [hbits, BitVec.toNat_zero] at this
        omega
      · intro h
        have := congrArg BitVec.toNat h
        rw [hbits, show (-1#11).toNat = 2047 from rfl] at this
        omega
    · obtain rfl : e = -1074 := by omega
      have hbits : (BitVec.ofNat 52 m).toNat = m := by
        rw [BitVec.toNat_ofNat]
        omega
      rw [pack_subnormal s hm (by omega), unpack_subnormal]
      · exact finite_congr hbits rfl
      · intro h
        have := congrArg BitVec.toNat h
        rw [hbits, BitVec.toNat_zero] at this
        omega

/-! ### Multiplying by one -/

theorem targetExponent_eq {s : Sign} {m : Nat} {e : Int} {h : 0 < m}
    (hc : IsCanonical (.finite s m e h)) :
    Format.binary64.targetExponent (totalExponent m e) = e := by
  obtain ⟨hmantissa, hexponent, hform⟩ := hc
  have hlog : m.log2 < 53 := (Nat.log2_lt h.ne').mpr hmantissa
  have htarget : Format.binary64.targetExponent (totalExponent m e) =
      max ((m.log2 : Int) + 1 + e - 53) (-1074) := rfl
  rw [htarget]
  rcases hform with ⟨hnormal, hlow⟩ | rfl
  · have hfull : 52 ≤ m.log2 := (Nat.le_log2 h.ne').mpr hnormal
    omega
  · omega

/-- Shifting out zeros loses nothing. -/
theorem shiftRight_mul_pow (n m : Nat) :
    (⟨m * 2 ^ n, false, false⟩ : ExtendedMantissa) >>> n = ⟨m, false, false⟩ := by
  have hshift : ∀ em : ExtendedMantissa, em >>> n = n.repeat ExtendedMantissa.shiftRightOne em :=
    fun _ => rfl
  rw [hshift]
  clear hshift
  induction n generalizing m with
  | zero => rw [pow_zero, mul_one]; rfl
  | succ n ih =>
    have hstep : ExtendedMantissa.shiftRightOne ⟨2 * m, false, false⟩ = ⟨m, false, false⟩ := by
      simp [ExtendedMantissa.shiftRightOne]
    rw [Nat.repeat, pow_succ', ← mul_assoc, mul_comm m 2, ih, hstep]

theorem shiftToTargetExponent_eq {s : Sign} {m n : Nat} {e : Int} {h : 0 < m}
    (hc : IsCanonical (.finite s m e h)) :
    shiftToTargetExponent Format.binary64 (m * 2 ^ n) (e - n) .exact = (⟨m, false, false⟩, e) := by
  have hlog : (m * 2 ^ n).log2 = m.log2 + n := by
    simp only [Nat.log2_eq_log_two]
    induction n with
    | zero => rw [pow_zero, mul_one, add_zero]
    | succ n ih =>
      have hpos := Nat.mul_pos h (Nat.two_pow_pos n)
      rw [pow_succ, ← mul_assoc, Nat.log_mul_base (by decide) hpos.ne', ih, add_assoc]
  have htotal : totalExponent (m * 2 ^ n) (e - n) = totalExponent m e := by
    rw [totalExponent, totalExponent, hlog]
    push_cast
    ring
  have hamount : (e - (e - (n : Int))).toNat = n := by omega
  rw [shiftToTargetExponent, htotal, targetExponent_eq hc, shiftToExponent]
  simp only [hamount, sub_add_cancel]
  exact congrArg (·, e) (shiftRight_mul_pow n m)

theorem roundWithAccuracy_eq {s t : Sign} {m n : Nat} {e : Int} {h : 0 < m}
    (hc : IsCanonical (.finite t m e h)) :
    roundWithAccuracy Format.binary64 s (m * 2 ^ n) (e - n) .exact = .finite s m e h := by
  have hagain : shiftToTargetExponent Format.binary64 m e .exact = (⟨m, false, false⟩, e) := by
    simpa using shiftToTargetExponent_eq (n := 0) hc
  rw [roundWithAccuracy, shiftToTargetExponent_eq hc]
  have hrounded : (⟨m, false, false⟩ : ExtendedMantissa).roundedMantissa = m := rfl
  simp only [hrounded, hagain]
  rw [dif_neg h.ne']

/-! ### Operations -/

/-- The sign, the mantissa and the exponent of a double. -/
def view (x : Float) : UnpackedFloat :=
  x.toModel.unpack

section View

variable {x y : Float}

theorem isCanonical_view (x : Float) : IsCanonical (view x) :=
  isCanonical_unpack _

theorem pack_view (x : Float) : Float.ofModel (.pack (view x)) = x := by
  obtain ⟨bits, hbits⟩ := x
  have hpack : pack Format.binary64 (unpack Format.binary64 bits.toBitVec) = bits.toBitVec :=
    pack_unpack_of_valid hbits
  simp only [view, Float.Model.pack, Float.Model.unpack, hpack]

/-- A double is determined by what is unpacked. -/
theorem eq_of_view (h : view x = view y) : x = y := by
  rw [← pack_view x, h, pack_view]

theorem view_pack {u : UnpackedFloat} (h : IsCanonical u) :
    view (Float.ofModel (.pack u)) = u :=
  unpack_pack h

theorem isCanonical_neg {u : UnpackedFloat} (h : IsCanonical u) : IsCanonical u.neg := by
  cases u with
  | finite s m e hm => exact h
  | _ => trivial

theorem view_neg (x : Float) : view (-x) = (view x).neg :=
  view_pack (isCanonical_neg (isCanonical_view x))

theorem view_mul {u : UnpackedFloat}
    (h : UnpackedFloat.mul Format.binary64 (view x) (view y) = u) (hu : IsCanonical u) :
    view (x * y) = u := by
  subst h
  exact view_pack hu

theorem view_add {u : UnpackedFloat}
    (h : UnpackedFloat.add Format.binary64 (view x) (view y) = u) (hu : IsCanonical u) :
    view (x + y) = u := by
  subst h
  exact view_pack hu

theorem isFinite_eq (x : Float) : Scalar.isFinite x = (view x).isFinite := by
  have hfinite : x.isFinite = (view x).isFinite := rfl
  have hrat : Scalar.isFinite x = (toRat? x).isSome := rfl
  rw [hrat, toRat?, hfinite]
  split
  · next h => rw [h]; rfl
  · next h => rw [Bool.not_eq_true] at h; rw [h]; rfl

theorem view_zero : view (Scalar.ofRat 0 : Float) = .zero .positive := rfl

theorem view_of_isFinite (h : Scalar.isFinite x = true) :
    (∃ s, view x = .zero s) ∨ ∃ s m e hm, view x = .finite s m e hm := by
  rw [isFinite_eq] at h
  cases hx : view x with
  | zero s => exact .inl ⟨s, rfl⟩
  | finite s m e hm => exact .inr ⟨s, m, e, hm, rfl⟩
  | infinity s => rw [hx] at h; cases h
  | notANumber => rw [hx] at h; cases h

end View

/-! ### The laws -/

section Unpacked

/-- Two zeros are equal, and otherwise only a number and itself are. -/
theorem unpacked_beq_iff {u w : UnpackedFloat} : u.beq w = true ↔
    (u = w ∧ u ≠ .notANumber) ∨ ∃ s t, u = .zero s ∧ w = .zero t := by
  rw [beq_iff_ne_notANumber_and_eq]
  constructor
  · rintro ⟨hu, -, rfl | ⟨rfl, rfl⟩ | ⟨rfl, rfl⟩⟩
    · exact .inl ⟨rfl, hu⟩
    · exact .inr ⟨_, _, rfl, rfl⟩
    · exact .inr ⟨_, _, rfl, rfl⟩
  · rintro (⟨rfl, hu⟩ | ⟨s, t, rfl, rfl⟩)
    · exact ⟨hu, hu, .inl rfl⟩
    · cases s <;> cases t <;> simp

/-- Multiplying by one, of either sign, is exact. -/
theorem mul_unit {s : Sign} {m : Nat} {e : Int} {h : 0 < m} (t : Sign)
    (hc : IsCanonical (.finite s m e h)) :
    UnpackedFloat.mul Format.binary64 (.finite s m e h)
      (.finite t (2 ^ 52) (-52) (Nat.two_pow_pos 52)) = .finite (s * t) m e h :=
  roundWithAccuracy_eq (n := 52) hc

theorem unit_mul {s : Sign} {m : Nat} {e : Int} {h : 0 < m} (t : Sign)
    (hc : IsCanonical (.finite s m e h)) :
    UnpackedFloat.mul Format.binary64 (.finite t (2 ^ 52) (-52) (Nat.two_pow_pos 52))
      (.finite s m e h) = .finite (t * s) m e h := by
  have hcomm : UnpackedFloat.mul Format.binary64 (.finite t (2 ^ 52) (-52) (Nat.two_pow_pos 52))
      (.finite s m e h) =
        roundWithAccuracy Format.binary64 (t * s) (m * 2 ^ 52) (e - (52 : Nat)) .exact := by
    rw [UnpackedFloat.mul, mul_comm, add_comm]
    rfl
  rw [hcomm, roundWithAccuracy_eq hc]

end Unpacked

theorem beq_iff {x y : Float} : (x == y) = true ↔
    (view x = view y ∧ view x ≠ .notANumber) ∨ ∃ s t, view x = .zero s ∧ view y = .zero t :=
  unpacked_beq_iff

theorem beq_iff_of_zero {x y : Float} {s : Sign} (hx : view x = .zero s) :
    (x == y) = true ↔ ∃ t, view y = .zero t := by
  rw [beq_iff, hx]
  constructor
  · rintro (⟨hy, -⟩ | ⟨-, t, -, hy⟩)
    · exact ⟨s, hy.symm⟩
    · exact ⟨t, hy⟩
  · rintro ⟨t, hy⟩
    exact .inr ⟨s, t, rfl, hy⟩

theorem beq_zero_iff {x : Float} :
    (x == (Scalar.ofRat 0 : Float)) = true ↔ ∃ s, view x = .zero s := by
  rw [BEq.comm]
  exact beq_iff_of_zero view_zero

/-! ### Exact values -/

theorem toNat_unpackExponent (bits : UInt64) :
    (@unpackExponent Format.binary64 bits.toBitVec).toNat =
      ((bits >>> 52) &&& 0x7FF).toNat := by
  have hmask : (0x7FF : UInt64).toNat = 2 ^ 11 - 1 := rfl
  rw [UInt64.toNat_and, UInt64.toNat_shiftRight, hmask, Nat.and_two_pow_sub_one_eq_mod]
  rfl

theorem toNat_unpackMantissa (bits : UInt64) :
    (@unpackMantissa Format.binary64 bits.toBitVec).toNat =
      (bits &&& 0xFFFFFFFFFFFFF).toNat := by
  have hmask : (0xFFFFFFFFFFFFF : UInt64).toNat = 2 ^ 52 - 1 := rfl
  rw [UInt64.toNat_and, hmask, Nat.and_two_pow_sub_one_eq_mod]
  rfl

theorem Magnitude.toRat_eq_zero_iff (x : Magnitude) : x.toRat = 0 ↔ x.m = 0 := by
  have hpow (n : Nat) : Nat.pow 2 n ≠ 0 := (Nat.two_pow_pos n).ne'
  rw [toRat]
  split
  · rw [Rat.mkRat_eq_zero (hpow _), Int.natCast_eq_zero]
  · rw [Nat.cast_eq_zero, Nat.mul_eq_zero, or_iff_left (hpow _)]

/-- Only the bit patterns of the two zeros have a magnitude of zero. -/
theorem magnitude_eq_zero_iff (bits : UInt64) : (Magnitude.ofBits bits).toRat = 0 ↔
    ∃ s, unpack Format.binary64 bits.toBitVec = .zero s := by
  obtain ⟨s, e, m, hbits⟩ := exists_packComponents bits.toBitVec
  have hexponent := toNat_unpackExponent bits
  have hmantissa := toNat_unpackMantissa bits
  rw [hbits, unpackExponent_packComponents] at hexponent
  rw [hbits, unpackMantissa_packComponents] at hmantissa
  rw [Magnitude.toRat_eq_zero_iff, Magnitude.ofBits, ← hexponent, ← hmantissa, hbits]
  have hhidden : 0 < hiddenBit := Nat.two_pow_pos 52
  by_cases h0 : e = 0#11
  · subst h0
    rw [if_pos (BitVec.toNat_zero (w := 11))]
    by_cases hm : m = 0#52
    · subst hm
      exact iff_of_true rfl ⟨s, unpack_zero s⟩
    · rw [unpack_subnormal s hm]
      exact iff_of_false (toNat_pos hm).ne' (by simp)
  · have hne : e.toNat ≠ 0 := fun h => h0 (BitVec.eq_of_toNat_eq h)
    rw [if_neg hne]
    refine iff_of_false (by dsimp only; omega) ?_
    by_cases h1 : e = -1#11
    · subst h1
      rw [unpack_special]
      split <;> simp
    · rw [unpack_normal s m h0 h1]
      simp

end Binary64

open Binary64
open Float.Model (UnpackedFloat)

instance : Scalar.Lawful Float where
  isFinite_zero := rfl
  one_ne_zero := rfl
  beq_self {x} h := by
    refine beq_iff.mpr (.inl ⟨rfl, ?_⟩)
    obtain ⟨s, hx⟩ | ⟨s, m, e, hm, hx⟩ := view_of_isFinite h <;> rw [hx] <;> simp
  eq_of_beq h hy := by
    obtain ⟨hview, -⟩ | ⟨s, t, -, hzero⟩ := beq_iff.mp h
    · exact eq_of_view hview
    · exact absurd (hy.symm.trans (beq_zero_iff.mpr ⟨t, hzero⟩)) Bool.false_ne_true
  isFinite_of_beq_zero h := by
    obtain ⟨s, hx⟩ := beq_zero_iff.mp h
    rw [isFinite_eq, hx]
    rfl
  beq_of_zero y h := by
    obtain ⟨s, hx⟩ := beq_zero_iff.mp h
    exact Bool.eq_iff_iff.mpr ((beq_iff_of_zero hx).trans (beq_iff_of_zero view_zero).symm)
  beq_comm _ _ := BEq.comm
  holds_of_zero {x} r h := by
    obtain ⟨s, hx⟩ := beq_zero_iff.mp h
    rw [← pack_view x, hx]
    cases s <;> cases r <;> rfl
  isFinite_neg {x} h := by
    rw [isFinite_eq, view_neg]
    obtain ⟨s, hx⟩ | ⟨s, m, e, hm, hx⟩ := view_of_isFinite h <;> rw [hx] <;> rfl
  neg_neg {x} h := by
    refine eq_of_view ?_
    rw [view_neg, view_neg]
    obtain ⟨s, hx⟩ | ⟨s, m, e, hm, hx⟩ := view_of_isFinite h <;> rw [hx] <;> cases s <;> rfl
  neg_beq_zero {x} h := by
    rw [Bool.eq_iff_iff]
    refine beq_zero_iff.trans (Iff.trans ?_ beq_zero_iff.symm)
    rw [view_neg]
    obtain ⟨s, hx⟩ | ⟨s, m, e, hm, hx⟩ := view_of_isFinite h <;> rw [hx]
    · exact iff_of_true ⟨-s, rfl⟩ ⟨s, rfl⟩
    · exact iff_of_false (by simp [UnpackedFloat.neg]) (by simp)
  mul_one {x} h := by
    refine eq_of_view (view_mul ?_ (isCanonical_view x))
    have hcanonical := isCanonical_view x
    obtain ⟨s, hx⟩ | ⟨s, m, e, hm, hx⟩ := view_of_isFinite h <;> rw [hx] at hcanonical ⊢
    · cases s <;> rfl
    · exact (mul_unit .positive hcanonical).trans (by cases s <;> rfl)
  one_mul {x} h := by
    refine eq_of_view (view_mul ?_ (isCanonical_view x))
    have hcanonical := isCanonical_view x
    obtain ⟨s, hx⟩ | ⟨s, m, e, hm, hx⟩ := view_of_isFinite h <;> rw [hx] at hcanonical ⊢
    · cases s <;> rfl
    · exact (unit_mul .positive hcanonical).trans (by cases s <;> rfl)
  mul_neg_one {x} h := by
    refine eq_of_view (view_mul ?_ (isCanonical_view (-x)))
    have hcanonical := isCanonical_view x
    rw [view_neg x]
    obtain ⟨s, hx⟩ | ⟨s, m, e, hm, hx⟩ := view_of_isFinite h <;> rw [hx] at hcanonical ⊢
    · cases s <;> rfl
    · exact (mul_unit .negative hcanonical).trans (by cases s <;> rfl)
  zero_mul {x} h := by
    refine beq_zero_iff.mpr ?_
    obtain ⟨s, hx⟩ | ⟨s, m, e, hm, hx⟩ := view_of_isFinite h
    · exact ⟨_, view_mul (by rw [hx]; rfl) trivial⟩
    · exact ⟨_, view_mul (by rw [hx]; rfl) trivial⟩
  add_of_zero {x y} hx hy := by
    obtain ⟨s, hx⟩ := beq_zero_iff.mp hx
    refine eq_of_view (view_add ?_ (isCanonical_view y))
    rw [hx]
    cases hview : view y with
    | zero t => exact absurd (hy.symm.trans (beq_zero_iff.mpr ⟨t, hview⟩)) Bool.false_ne_true
    | _ => rfl
  add_zeros {x y} hx hy := by
    obtain ⟨s, hx⟩ := beq_zero_iff.mp hx
    obtain ⟨t, hy⟩ := beq_zero_iff.mp hy
    refine beq_zero_iff.mpr ?_
    rcases s with _ | _ <;> rcases t with _ | _ <;>
      exact ⟨_, view_add (by rw [hx, hy]; rfl) trivial⟩

instance : Scalar.ExactZero Float where
  beq_zero_iff {x q} h := by
    have hrat : toRat? x = some q := h
    rw [toRat?] at hrat
    split at hrat
    · obtain rfl := Option.some.inj hrat
      refine beq_zero_iff.trans ((magnitude_eq_zero_iff x.toBits).symm.trans ?_)
      split
      · exact neg_eq_zero.symm
      · rfl
    · cases hrat

end RuleAudit
