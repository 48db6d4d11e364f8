import Mathlib.Tactic.NormNum
import Mathlib.Tactic.Ring
import Pddl.Number

/-!
# Integers beyond the doubles

An integer is converted to the nearest double, with ties to the even one.  The greatest finite
double is `2 ^ 1024 - 2 ^ 971`, and what is nearer to it than to `2 ^ 1024` is converted to it.  So
the conversion leaves the finite doubles exactly from `2 ^ 1024 - 2 ^ 970` on, which is half-way
(`isInf_ofInt_iff`).
-/

namespace Pddl.Number

open Float.Model (Format totalExponent)
open Float.Model.UnpackedFloat

/-! ### Packing -/

/-- The number is an infinity, or too large for the exponents of a double. -/
def LeavesDoubles : Float.Model.UnpackedFloat → Prop
  | .infinity _ => True
  | .finite _ _ exponent _ => 972 ≤ exponent
  | _ => False

/-- An exponent that is not the greatest one is told apart from it. -/
lemma ofNat_ne_allOnes {n : Nat} (h : n + 1 < 2 ^ 11) : BitVec.ofNat 11 n ≠ -1#11 := by
  intro heq
  have hvalue := congrArg BitVec.toNat heq
  rw [BitVec.toNat_ofNat, Nat.mod_eq_of_lt (by omega)] at hvalue
  norm_num at hvalue
  omega

/-- The parts of an infinity. -/
lemma isInf_unpack_packComponents (sign : Sign) (exponent : BitVec 11) (mantissa : BitVec 52) :
    (unpack .binary64 (packComponents .binary64 sign exponent mantissa)).isInf = true ↔
      exponent = -1#11 ∧ mantissa = 0#52 := by
  unfold Float.Model.UnpackedFloat.unpack
  by_cases hexponent : exponent = -1#11
  · rw [if_pos (unpackExponent_packComponents.trans hexponent)]
    by_cases hmantissa : mantissa = 0#52
    · rw [if_pos (unpackMantissa_packComponents.trans hmantissa)]
      exact ⟨fun _ => ⟨hexponent, hmantissa⟩, fun _ => rfl⟩
    · rw [if_neg (mt unpackMantissa_packComponents.symm.trans hmantissa)]
      refine ⟨fun h => ?_, fun h => absurd h.2 hmantissa⟩
      cases h
  · rw [if_neg (mt unpackExponent_packComponents.symm.trans hexponent)]
    refine ⟨fun h => ?_, fun h => absurd h.1 hexponent⟩
    by_cases hzero : unpackExponent (packComponents .binary64 sign exponent mantissa) = 0#_
    · rw [if_pos hzero] at h
      by_cases hnone : unpackMantissa (packComponents .binary64 sign exponent mantissa) = 0#_
      · rw [dif_pos hnone] at h
        cases h
      · rw [dif_neg hnone] at h
        cases h
    · rw [if_neg hzero] at h
      cases h

section Finite

variable (sign : Sign) (mantissa : Nat) {exponent : Int} (hpos : 0 < mantissa)

/-- How a number with an exponent is packed. -/
lemma pack_finite :
    pack .binary64 (.finite sign mantissa exponent hpos) =
      if 2 ^ 11 ≤ (exponent + 1075).toNat + 1 then packedInfinity .binary64 sign
      else if mantissa.log2 + 1 = 53 then
        packComponents .binary64 sign (BitVec.ofNat 11 (exponent + 1075).toNat)
          (BitVec.ofNat 52 mantissa)
      else packComponents .binary64 sign 0#11 (BitVec.ofNat 52 mantissa) := by
  have hbias : (exponent + 1075).toNat = (exponent + (1023 : Nat) + (52 : Nat)).toNat := by
    omega
  rw [hbias]
  rfl

/-- A number with a large exponent is packed as an infinity. -/
lemma pack_finite_of_le (h : 972 ≤ exponent) :
    pack .binary64 (.finite sign mantissa exponent hpos) = packedInfinity .binary64 sign := by
  rw [pack_finite, if_pos (by omega)]

/-- A number with another exponent keeps it, unless it is subnormal. -/
lemma exists_pack_finite_eq (h : exponent < 972) :
    ∃ field value, pack .binary64 (.finite sign mantissa exponent hpos) =
      packComponents .binary64 sign field value ∧ field ≠ -1#11 ∧
        field.toNat ≤ (exponent + 1075).toNat := by
  rw [pack_finite, if_neg (by omega)]
  split
  · refine ⟨_, _, rfl, ofNat_ne_allOnes (by omega), ?_⟩
    rw [BitVec.toNat_ofNat]
    exact Nat.mod_le _ _
  · exact ⟨_, _, rfl, by decide, Nat.zero_le _⟩

end Finite

/-- A packed number is an infinity exactly if the number leaves the doubles. -/
lemma isInf_pack_iff (f : Float.Model.UnpackedFloat) :
    (Float.Model.pack f).isInf = true ↔ LeavesDoubles f := by
  change (unpack .binary64 (pack .binary64 f)).isInf = true ↔ _
  cases f with
  | infinity sign =>
    exact ⟨fun _ => trivial, fun _ => (isInf_unpack_packComponents sign _ _).mpr ⟨rfl, rfl⟩⟩
  | notANumber =>
    refine ⟨fun h => ?_, False.elim⟩
    have hparts := (isInf_unpack_packComponents _ _ _).mp h
    exact absurd hparts.2 (by decide)
  | zero sign =>
    refine ⟨fun h => ?_, False.elim⟩
    have hparts := (isInf_unpack_packComponents _ _ _).mp h
    exact absurd hparts.1 (by decide)
  | finite sign mantissa exponent hpos =>
    change _ ↔ 972 ≤ exponent
    by_cases hlarge : 972 ≤ exponent
    · rw [pack_finite_of_le sign mantissa hpos hlarge]
      exact ⟨fun _ => hlarge, fun _ => (isInf_unpack_packComponents sign _ _).mpr ⟨rfl, rfl⟩⟩
    · obtain ⟨field, value, hpack, hfield, -⟩ :=
        exists_pack_finite_eq sign mantissa hpos (not_le.mp hlarge)
      rw [hpack]
      refine ⟨fun h => ?_, fun h => absurd h hlarge⟩
      exact absurd ((isInf_unpack_packComponents _ _ _).mp h).1 hfield

/-! ### Shifting and rounding -/

/-- A shift divides the mantissa. -/
lemma mantissa_shiftRight (m : ExtendedMantissa) (k : Nat) :
    (m >>> k).mantissa = m.mantissa / 2 ^ k := by
  induction k with
  | zero => exact (Nat.div_one _).symm
  | succ k ih =>
    change (m >>> k).mantissa / 2 = _
    rw [ih, Nat.div_div_eq_div_mul, pow_succ]

/-- After a shift, the round bit is the last bit that was dropped. -/
lemma roundBit_shiftRight (m : ExtendedMantissa) (k : Nat) :
    (m >>> (k + 1)).roundBit = (m.mantissa / 2 ^ k % 2 != 0) := by
  change ((m >>> k).mantissa % 2 != 0) = _
  rw [mantissa_shiftRight]

/-- Rounding adds one or nothing. -/
lemma roundedMantissa_bounds (m : ExtendedMantissa) :
    m.mantissa ≤ m.roundedMantissa ∧ m.roundedMantissa ≤ m.mantissa + 1 := by
  obtain ⟨mantissa, roundBit, stickyBit⟩ := m
  cases roundBit <;> cases stickyBit <;>
    simp only [ExtendedMantissa.roundedMantissa, ExtendedMantissa.accuracy,
      Accuracy.roundToNearestEven] <;> omega

/-- An odd mantissa is rounded by its round bit alone, since ties go to the even one. -/
lemma roundedMantissa_of_odd {m : ExtendedMantissa} (hodd : m.mantissa % 2 = 1) :
    m.roundedMantissa = m.mantissa + m.roundBit.toNat := by
  obtain ⟨mantissa, roundBit, stickyBit⟩ := m
  dsimp only at hodd
  cases roundBit <;> cases stickyBit <;>
    simp only [ExtendedMantissa.roundedMantissa, ExtendedMantissa.accuracy,
      Accuracy.roundToNearestEven, hodd, Bool.toNat_true, Bool.toNat_false, Nat.add_zero]

/-- How far a number is shifted to have the exponent that it has as a double. -/
def doubleShift (mantissa : Nat) (exponent : Int) : Nat :=
  (max ((mantissa.log2 : Int) + exponent - 52) (-1074) - exponent).toNat

/-- The exponent that a number has as a double. -/
lemma targetExponent_eq (mantissa : Nat) (exponent : Int) :
    Format.targetExponent .binary64 (totalExponent mantissa exponent) =
      max ((mantissa.log2 : Int) + exponent - 52) (-1074) := by
  change max ((mantissa.log2 : Int) + 1 + exponent - 53) (-1074) = _
  congr 1
  omega

/-- Shifting an exact number to the exponent that it has as a double. -/
lemma shiftToTargetExponent_exact (mantissa : Nat) (exponent : Int) :
    shiftToTargetExponent .binary64 mantissa exponent .exact =
      (ExtendedMantissa.mk mantissa false false >>> doubleShift mantissa exponent,
        exponent + doubleShift mantissa exponent) := by
  unfold shiftToTargetExponent shiftToExponent
  simp only [targetExponent_eq]
  rfl

/-- The mantissa of a number that is rounded to a double, before it is shifted again. -/
def roundedOnce (mantissa : Nat) (exponent : Int) : Nat :=
  (ExtendedMantissa.mk mantissa false false >>> doubleShift mantissa exponent).roundedMantissa

/-- What a shift has left leaves the doubles only if it is not zero. -/
lemma leavesDoubles_unless_zero (sign : Sign) {mantissa : Nat} {exponent : Int}
    (hpos : ¬ mantissa = 0 → 0 < mantissa) :
    LeavesDoubles (if h : mantissa = 0 then .zero sign
      else .finite sign mantissa exponent (hpos h)) ↔ mantissa ≠ 0 ∧ 972 ≤ exponent := by
  by_cases hzero : mantissa = 0
  · rw [dif_pos hzero]
    exact ⟨False.elim, fun h => absurd hzero h.1⟩
  · rw [dif_neg hzero]
    exact ⟨fun h => ⟨hzero, h⟩, fun h => h.2⟩

/-- A number is shifted twice, because rounding it up can take one bit more. -/
lemma leavesDoubles_round_iff (sign : Sign) (mantissa : Nat) (exponent : Int) :
    LeavesDoubles (roundWithAccuracy .binary64 sign mantissa exponent .exact) ↔
      roundedOnce mantissa exponent / 2 ^ doubleShift (roundedOnce mantissa exponent)
        (exponent + doubleShift mantissa exponent) ≠ 0 ∧
      972 ≤ exponent + doubleShift mantissa exponent +
        doubleShift (roundedOnce mantissa exponent)
          (exponent + doubleShift mantissa exponent) := by
  unfold roundWithAccuracy
  rw [shiftToTargetExponent_exact]
  dsimp only
  rw [leavesDoubles_unless_zero sign, shiftToTargetExponent_exact, mantissa_shiftRight]
  rfl

/-! ### Integers

An integer `n` is rounded as `n * 2 ^ 53` with the exponent `-53`, so that it has bits enough. -/

section Integers

variable {n : Nat}

/-- The first shift keeps 53 bits. -/
lemma doubleShift_scaled (hn : n ≠ 0) : doubleShift (n * 2 ^ 53) (-53) = n.log2 + 1 := by
  have hlog : (n * 2 ^ 53).log2 = n.log2 + 53 := by
    have hlower := Nat.log2_self_le hn
    have hupper : n < 2 ^ (n.log2 + 1) := Nat.lt_log2_self
    rw [Nat.log2_eq_iff (by positivity)]
    constructor
    · calc 2 ^ (n.log2 + 53) = 2 ^ n.log2 * 2 ^ 53 := pow_add _ _ _
        _ ≤ n * 2 ^ 53 := Nat.mul_le_mul_right _ hlower
    · calc n * 2 ^ 53 < 2 ^ (n.log2 + 1) * 2 ^ 53 :=
          (Nat.mul_lt_mul_right (Nat.two_pow_pos 53)).mpr hupper
        _ = 2 ^ (n.log2 + 53 + 1) := by rw [← pow_add, Nat.add_right_comm]
  unfold doubleShift
  rw [hlog]
  omega

/-- The bits that are kept by the first shift. -/
lemma kept_bounds (hn : n ≠ 0) :
    2 ^ 52 ≤ n * 2 ^ 53 / 2 ^ (n.log2 + 1) ∧ n * 2 ^ 53 / 2 ^ (n.log2 + 1) < 2 ^ 53 := by
  have hlower := Nat.log2_self_le hn
  have hupper : n < 2 ^ (n.log2 + 1) := Nat.lt_log2_self
  constructor
  · rw [Nat.le_div_iff_mul_le (by positivity), pow_succ]
    omega
  · rw [Nat.div_lt_iff_lt_mul (by positivity), Nat.mul_comm]
    exact (Nat.mul_lt_mul_left (Nat.two_pow_pos 53)).mpr hupper

/-- The kept bits after rounding. -/
lemma roundedOnce_bounds (hn : n ≠ 0) :
    n * 2 ^ 53 / 2 ^ (n.log2 + 1) ≤ roundedOnce (n * 2 ^ 53) (-53) ∧
      roundedOnce (n * 2 ^ 53) (-53) ≤ n * 2 ^ 53 / 2 ^ (n.log2 + 1) + 1 := by
  have hbounds := roundedMantissa_bounds
    (ExtendedMantissa.mk (n * 2 ^ 53) false false >>> doubleShift (n * 2 ^ 53) (-53))
  rw [mantissa_shiftRight, doubleShift_scaled hn] at hbounds
  unfold roundedOnce
  rw [doubleShift_scaled hn]
  exact hbounds

/-- The second shift drops the bit that rounding may have added. -/
lemma doubleShift_rounded {r : Nat} {exponent : Int} (hlower : 2 ^ 52 ≤ r) (hupper : r ≤ 2 ^ 53)
    (hexponent : -1074 ≤ exponent) :
    doubleShift r exponent = if r = 2 ^ 53 then 1 else 0 := by
  have hlog : r.log2 = if r = 2 ^ 53 then 53 else 52 := by
    rw [Nat.log2_eq_iff (by omega)]
    split
    · omega
    · omega
  unfold doubleShift
  rw [hlog]
  split
  · omega
  · omega

/-- A rounded integer leaves the doubles if it has too many bits, or gets too many by rounding. -/
lemma leavesDoubles_scaled_iff (hn : n ≠ 0) (sign : Sign) :
    LeavesDoubles (roundWithAccuracy .binary64 sign (n * 2 ^ 53) (-53) .exact) ↔
      1024 ≤ n.log2 ∨ (n.log2 = 1023 ∧ roundedOnce (n * 2 ^ 53) (-53) = 2 ^ 53) := by
  have hkept := kept_bounds hn
  have hrounded := roundedOnce_bounds hn
  have hsecond : doubleShift (roundedOnce (n * 2 ^ 53) (-53)) (-53 + (n.log2 + 1 : Nat)) =
      if roundedOnce (n * 2 ^ 53) (-53) = 2 ^ 53 then 1 else 0 :=
    doubleShift_rounded (by omega) (by omega) (by omega)
  rw [leavesDoubles_round_iff, doubleShift_scaled hn, hsecond]
  split
  case isTrue heq =>
    rw [heq]
    constructor
    · omega
    · exact fun h => ⟨by decide, by omega⟩
  case isFalse hne =>
    constructor
    · omega
    · exact fun h => ⟨by omega, by omega⟩

/-- Of an integer with 1024 bits, the first shift keeps all but 971. -/
lemma kept_eq (hlog : n.log2 = 1023) : n * 2 ^ 53 / 2 ^ (n.log2 + 1) = n / 2 ^ 970 / 2 := by
  have hpow : (2 : Nat) ^ (n.log2 + 1) = 2 ^ 970 * 2 * 2 ^ 53 := by
    rw [hlog, ← pow_succ, ← pow_add]
  rw [hpow, Nat.mul_div_mul_right _ _ (Nat.two_pow_pos 53), Nat.div_div_eq_div_mul]

/-- If the kept bits of an integer with 1024 bits are odd, the next bit is added. -/
lemma roundedOnce_of_odd (hlog : n.log2 = 1023) (hn : n ≠ 0) (hodd : n / 2 ^ 970 / 2 % 2 = 1) :
    roundedOnce (n * 2 ^ 53) (-53) = n / 2 ^ 970 / 2 + n / 2 ^ 970 % 2 := by
  have hpow : (2 : Nat) ^ 1023 = 2 ^ 970 * 2 ^ 53 := by rw [← pow_add]
  have hkept : (ExtendedMantissa.mk (n * 2 ^ 53) false false >>> (n.log2 + 1)).mantissa =
      n / 2 ^ 970 / 2 := by
    rw [mantissa_shiftRight]
    exact kept_eq hlog
  have hbit : (ExtendedMantissa.mk (n * 2 ^ 53) false false >>> (n.log2 + 1)).roundBit =
      (n / 2 ^ 970 % 2 != 0) := by
    rw [roundBit_shiftRight, hlog]
    change (n * 2 ^ 53 / 2 ^ 1023 % 2 != 0) = _
    rw [hpow, Nat.mul_div_mul_right _ _ (Nat.two_pow_pos 53)]
  unfold roundedOnce
  rw [doubleShift_scaled hn, roundedMantissa_of_odd (by rw [hkept]; exact hodd), hkept, hbit]
  rcases Nat.mod_two_eq_zero_or_one (n / 2 ^ 970) with hzero | hone
  · rw [hzero]
    rfl
  · rw [hone]
    rfl

/-- An integer leaves the doubles from half-way between the greatest one and the next power. -/
lemma leavesDoubles_scaled_iff_le (hn : n ≠ 0) (sign : Sign) :
    LeavesDoubles (roundWithAccuracy .binary64 sign (n * 2 ^ 53) (-53) .exact) ↔
      2 ^ 1024 - 2 ^ 970 ≤ n := by
  -- All bounds are taken in units of `2 ^ 970`.
  have hunit : ∀ {unit : Nat}, 0 < unit →
      (2 ^ 54 * unit - unit ≤ n ↔ 2 ^ 54 - 1 ≤ n / unit) := by
    intro unit hpos
    rw [Nat.le_div_iff_mul_le hpos, Nat.sub_one_mul]
  have hlog : ∀ k u : Nat, k + u ≤ n.log2 ↔ 2 ^ k ≤ n / 2 ^ u := by
    intro k u
    rw [Nat.le_log2 hn, Nat.le_div_iff_mul_le (by positivity), ← pow_add]
  have hbound : 2 ^ 1024 - 2 ^ 970 ≤ n ↔ 2 ^ 54 - 1 ≤ n / 2 ^ 970 := by
    rw [show (2 : Nat) ^ 1024 = 2 ^ 54 * 2 ^ 970 by rw [← pow_add]]
    exact hunit (by positivity)
  have hmany : 1024 ≤ n.log2 ↔ 2 ^ 54 ≤ n / 2 ^ 970 := hlog 54 970
  have henough : 1023 ≤ n.log2 ↔ 2 ^ 53 ≤ n / 2 ^ 970 := hlog 53 970
  have hupper : n.log2 = 1023 → roundedOnce (n * 2 ^ 53) (-53) ≤ n / 2 ^ 970 / 2 + 1 := by
    intro hlog
    rw [← kept_eq hlog]
    exact (roundedOnce_bounds hn).2
  have hodd := fun hlog => roundedOnce_of_odd (n := n) hlog hn
  rw [leavesDoubles_scaled_iff hn, hbound]
  generalize n / 2 ^ 970 = units at hmany henough hupper hodd ⊢
  constructor
  · rintro (hlog | ⟨hlog, hrounded⟩)
    · have := hmany.mp hlog
      omega
    · have hless : ¬ 2 ^ 54 ≤ units := fun h => absurd (hmany.mpr h) (by omega)
      have := hupper hlog
      have := hodd hlog (by omega)
      omega
  · intro hle
    by_cases hlog : 1024 ≤ n.log2
    · exact Or.inl hlog
    · have hless := mt hmany.mpr hlog
      have hlog' : n.log2 = 1023 := by
        have := henough.mpr (by omega)
        omega
      -- From half-way on the kept bits are all ones, so that the next bit decides.
      have := hodd hlog' (by omega)
      exact Or.inr ⟨hlog', by omega⟩

end Integers

/-! ### Conversions -/

/-- The number is not an infinity, and if it has an exponent, that is at most the given one. -/
def ExponentAtMost (bound : Int) : Float.Model.UnpackedFloat → Prop
  | .infinity _ => False
  | .finite _ _ exponent _ => exponent ≤ bound
  | _ => True

/-- A number with a small exponent stays in the doubles. -/
lemma ExponentAtMost.not_leavesDoubles {bound : Int} {f : Float.Model.UnpackedFloat}
    (h : ExponentAtMost bound f) (hbound : bound ≤ 971) : ¬ LeavesDoubles f := by
  cases f with
  | infinity sign => exact h.elim
  | notANumber => exact id
  | zero sign => exact id
  | finite sign mantissa exponent hpos =>
    have hle : exponent ≤ bound := h
    change ¬ 972 ≤ exponent
    omega

/-- A number of limited size has few bits. -/
lemma log2_le_of_lt {n k : Nat} (h : n < 2 ^ (k + 1)) : n.log2 ≤ k := by
  by_cases hzero : n = 0
  · rw [hzero, Nat.log2_zero]
    exact Nat.zero_le k
  · exact Nat.le_of_lt_succ ((Nat.log2_lt hzero).mpr h)

/-- The exponent that a mantissa of limited size is shifted to. -/
lemma doubleShift_le {mantissa : Nat} {exponent bound : Int} {bits : Nat}
    (hbits : mantissa.log2 ≤ bits) (hexponent : exponent ≤ bound) (hbound : 0 ≤ bound) :
    exponent + doubleShift mantissa exponent ≤ bound + bits := by
  unfold doubleShift
  omega

/-- What a shift has left keeps its exponent, unless it is zero. -/
lemma exponentAtMost_unless_zero (sign : Sign) {mantissa : Nat} {exponent bound : Int}
    (hpos : ¬ mantissa = 0 → 0 < mantissa) (h : exponent ≤ bound) :
    ExponentAtMost bound (if h : mantissa = 0 then .zero sign
      else .finite sign mantissa exponent (hpos h)) := by
  by_cases hzero : mantissa = 0
  · rw [dif_pos hzero]
    exact trivial
  · rw [dif_neg hzero]
    exact h

/-- Rounding a number of limited size raises its exponent by a limited amount. -/
lemma exponentAtMost_round {mantissa : Nat} {exponent bound : Int} (sign : Sign)
    (hbits : mantissa.log2 ≤ 128) (hexponent : exponent ≤ bound) (hbound : 0 ≤ bound) :
    ExponentAtMost (bound + 257) (roundWithAccuracy .binary64 sign mantissa exponent .exact) := by
  have hfirst := doubleShift_le hbits hexponent hbound
  have hrounded : (roundedOnce mantissa exponent).log2 ≤ 129 := by
    have hless : mantissa < 2 ^ 129 := Nat.lt_of_lt_of_le Nat.lt_log2_self
      (Nat.pow_le_pow_right (by decide) (by omega))
    have hle := (roundedMantissa_bounds
      (ExtendedMantissa.mk mantissa false false >>> doubleShift mantissa exponent)).2
    rw [mantissa_shiftRight] at hle
    have hdiv := Nat.div_le_self mantissa (2 ^ doubleShift mantissa exponent)
    refine log2_le_of_lt (Nat.lt_of_le_of_lt hle ?_)
    dsimp only
    omega
  have hsecond := doubleShift_le hrounded hfirst (by omega)
  unfold roundWithAccuracy
  rw [shiftToTargetExponent_exact]
  dsimp only
  refine exponentAtMost_unless_zero sign _ ?_
  rw [shiftToTargetExponent_exact]
  change exponent + doubleShift mantissa exponent +
    doubleShift (roundedOnce mantissa exponent) _ ≤ _
  omega

/-- The parts of a finite double. -/
lemma unpack_eq_finite {bits : BitVec 64} {sign : Sign} {mantissa : Nat} {exponent : Int}
    {hpos : 0 < mantissa} (h : unpack .binary64 bits = .finite sign mantissa exponent hpos) :
    mantissa < 2 ^ 53 ∧
      exponent ≤ max ((@unpackExponent .binary64 bits).toNat - 1075 : Int) (-1074) ∧
      @unpackExponent .binary64 bits ≠ -1#11 ∧ exponent ≤ 971 := by
  have hfield := (@unpackExponent .binary64 bits).isLt
  change _ < 2 ^ 11 at hfield
  unfold Float.Model.UnpackedFloat.unpack at h
  dsimp only at h
  by_cases hlast : @unpackExponent .binary64 bits = -1#_
  · rw [if_pos hlast] at h
    by_cases hnone : @unpackMantissa .binary64 bits = 0#_
    · rw [if_pos hnone] at h
      cases h
    · rw [if_neg hnone] at h
      cases h
  · rw [if_neg hlast] at h
    have hne : (@unpackExponent .binary64 bits).toNat ≠ 2047 := by
      intro heq
      exact hlast (BitVec.eq_of_toNat_eq heq)
    by_cases hzero : @unpackExponent .binary64 bits = 0#_
    · rw [if_pos hzero] at h
      by_cases hnone : @unpackMantissa .binary64 bits = 0#_
      · rw [dif_pos hnone] at h
        cases h
      · rw [dif_neg hnone] at h
        cases h
        have hmantissa := (@unpackMantissa .binary64 bits).isLt
        change _ < 2 ^ 52 at hmantissa
        refine ⟨by omega, ?_, hlast, ?_⟩
        · rw [hzero]
          decide
        · rw [hzero]
          decide
    · rw [if_neg hzero] at h
      cases h
      have hmantissa := (1#1 ++ @unpackMantissa .binary64 bits).isLt
      change _ < 2 ^ 53 at hmantissa
      refine ⟨hmantissa, ?_, hlast, ?_⟩
      · change ((@unpackExponent .binary64 bits).toNat : Int) - (1023 + 52) ≤ _
        omega
      · change ((@unpackExponent .binary64 bits).toNat : Int) - (1023 + 52) ≤ _
        omega

/-- The exponent field of a packed number with a small exponent. -/
lemma unpackExponent_pack_le {f : Float.Model.UnpackedFloat} {bound : Int}
    (h : ExponentAtMost bound f) (hlow : 0 ≤ bound) (hhigh : bound ≤ 971)
    (hne : @unpackExponent .binary64 (pack .binary64 f) ≠ -1#11) :
    ((@unpackExponent .binary64 (pack .binary64 f)).toNat : Int) ≤ bound + 1075 := by
  cases f with
  | infinity sign => exact h.elim
  | notANumber => exact absurd unpackExponent_packComponents hne
  | zero sign =>
    have hfield : @unpackExponent .binary64 (pack .binary64 (.zero sign)) = 0 :=
      unpackExponent_packComponents
    rw [hfield]
    change (0 : Int) ≤ _
    omega
  | finite sign mantissa exponent hpos =>
    have hle : exponent ≤ bound := h
    obtain ⟨field, value, hpack, -, hfield⟩ :=
      exists_pack_finite_eq sign mantissa hpos (show exponent < 972 by omega)
    rw [hpack, unpackExponent_packComponents]
    omega

/-- Packing and unpacking do not raise an exponent that a double can have. -/
lemma exponentAtMost_unpack_pack {f : Float.Model.UnpackedFloat} {bound : Int}
    (h : ExponentAtMost bound f) (hlow : 0 ≤ bound) (hhigh : bound ≤ 971) :
    ExponentAtMost bound (Float.Model.pack f).unpack := by
  have hfinite := mt (isInf_pack_iff f).mp (h.not_leavesDoubles hhigh)
  unfold Float.Model.isInf at hfinite
  cases hunpack : (Float.Model.pack f).unpack with
  | infinity sign =>
    rw [hunpack] at hfinite
    exact absurd rfl hfinite
  | notANumber => exact trivial
  | zero sign => exact trivial
  | finite sign mantissa exponent hpos =>
    obtain ⟨-, hexponent, hlast, -⟩ := unpack_eq_finite hunpack
    have hfield := unpackExponent_pack_le h hlow hhigh hlast
    change exponent ≤ bound
    change exponent ≤ max (((@unpackExponent .binary64 (pack .binary64 f)).toNat : Int) - 1075) _
      at hexponent
    omega

/-- An integer of at most 53 bits, as a double. -/
lemma exponentAtMost_ofNat {n : Nat} (hn : n < 2 ^ 53) :
    ExponentAtMost 257 (Float.Model.UnpackedFloat.ofNat .binary64 n) := by
  have hcompare : compare (n : Int) 0 = if n = 0 then .eq else .gt := by
    split
    case isTrue hzero => rw [hzero]; rfl
    case isFalse hne => rw [compare_gt_iff_gt]; omega
  unfold Float.Model.UnpackedFloat.ofNat Float.Model.UnpackedFloat.ofInt
    Float.Model.UnpackedFloat.normalize
  rw [hcompare]
  by_cases hzero : n = 0
  · rw [if_pos hzero]
    exact trivial
  · rw [if_neg hzero]
    let shift := (0 - Format.targetExponent .binary64 (totalExponent n 0)).toNat
    have hshift : shift ≤ 52 := by
      change (0 - Format.targetExponent .binary64 (totalExponent n 0)).toNat ≤ 52
      rw [targetExponent_eq]
      omega
    have hbits : (n <<< shift).log2 ≤ 128 := by
      refine log2_le_of_lt ?_
      rw [Nat.shiftLeft_eq]
      calc n * 2 ^ shift ≤ n * 2 ^ 52 :=
          Nat.mul_le_mul_left n (Nat.pow_le_pow_right (by decide) hshift)
        _ < 2 ^ 129 := by omega
    exact exponentAtMost_round .positive hbits (show (0 : Int) - shift ≤ 0 by omega) le_rfl

/-- Multiplying a double by one keeps its exponent small. -/
lemma exponentAtMost_mul_one {x : Float.Model} (h : ExponentAtMost 257 x.unpack) :
    ExponentAtMost 514
      (mul .binary64 x.unpack (.finite .positive (2 ^ 52) (-52) (Nat.two_pow_pos 52))) := by
  cases hunpack : x.unpack with
  | infinity sign =>
    rw [hunpack] at h
    exact h.elim
  | notANumber => exact trivial
  | zero sign => exact trivial
  | finite sign mantissa exponent hpos =>
    rw [hunpack] at h
    have hexponent : exponent ≤ 257 := h
    obtain ⟨hmantissa, -⟩ := unpack_eq_finite hunpack
    exact exponentAtMost_round _ (log2_le_of_lt (by omega))
      (show exponent + -52 ≤ 257 by omega) (by decide)

/-- The double of a natural number of at most 53 bits is not an infinity. -/
lemma isInf_ofNat_of_lt {n : Nat} (hn : n < 2 ^ 53) : (Float.ofNat n).isInf = false := by
  -- Such a number is converted as a machine word, and multiplied with a power of ten that is one.
  have hone : (Float.ofBits 0x3FF0000000000000).toModel.unpack =
      .finite .positive (2 ^ 52) (-52) (Nat.two_pow_pos 52) := rfl
  have hmodel : (Float.ofNat n).toModel =
      Float.Model.pack (mul .binary64
        (Float.Model.pack (Float.Model.UnpackedFloat.ofNat .binary64 n)).unpack
        (.finite .positive (2 ^ 52) (-52) (Nat.two_pow_pos 52))) := by
    change (Float.ofScientific n false 0).toModel = _
    unfold Float.ofScientific
    rw [dif_pos ⟨hn, by decide⟩]
    change Float.Model.pack (mul .binary64 (Float.Model.pack
      (Float.Model.UnpackedFloat.ofNat .binary64 n.toUInt64.toNat)).unpack
        (Float.ofBits 0x3FF0000000000000).toModel.unpack) = _
    rw [hone, Nat.toUInt64_eq, UInt64.toNat_ofNat', Nat.mod_eq_of_lt (by omega)]
  have hfirst := exponentAtMost_unpack_pack (exponentAtMost_ofNat hn) (by decide) (by decide)
  have hstays := (exponentAtMost_mul_one hfirst).not_leavesDoubles (by decide)
  change (Float.ofNat n).toModel.isInf = false
  rw [hmodel, Bool.eq_false_iff]
  exact mt (isInf_pack_iff _).mp hstays

/-- The double of another natural number is rounded from the scaled number. -/
lemma isInf_ofNat_iff_of_le {n : Nat} (hn : 2 ^ 53 ≤ n) :
    (Float.ofNat n).isInf = true ↔ 2 ^ 1024 - 2 ^ 970 ≤ n := by
  have hne : n ≠ 0 := by omega
  have hmodel : (Float.ofNat n).toModel =
      Float.Model.pack (roundWithAccuracy .binary64 .positive (n * 2 ^ 53) (-53) .exact) := by
    change (Float.ofScientific n false 0).toModel = _
    unfold Float.ofScientific
    rw [dif_neg (by omega)]
    have hnotTiny : ¬ (0 : Int) < -((2 ^ Format.exponentBits .binary64 : Int) + n.log2) := by
      change ¬ (0 : Int) < -((2 ^ 11 : Int) + n.log2)
      omega
    change Float.Model.pack (Float.Model.UnpackedFloat.ofScientific .binary64 n 0) = _
    unfold Float.Model.UnpackedFloat.ofScientific
    rw [dif_neg hne, if_neg (by decide), if_neg hnotTiny, if_pos (by decide)]
    change Float.Model.pack (roundWithAccuracy .binary64 .positive (n <<< 53 * 1) (-53) .exact) = _
    rw [Nat.shiftLeft_eq, Nat.mul_one]
  change (Float.ofNat n).toModel.isInf = true ↔ _
  rw [hmodel, isInf_pack_iff, leavesDoubles_scaled_iff_le hne]

/-- The sign does not decide whether a double is an infinity. -/
lemma isInf_neg (x : Float) : x.neg.isInf = x.isInf := by
  change (Float.Model.pack x.toModel.unpack.neg).isInf = x.toModel.unpack.isInf
  rw [Bool.eq_iff_iff, isInf_pack_iff]
  cases hunpack : x.toModel.unpack with
  | infinity sign => exact ⟨fun _ => rfl, fun _ => trivial⟩
  | notANumber => exact ⟨False.elim, Bool.noConfusion⟩
  | zero sign => exact ⟨False.elim, Bool.noConfusion⟩
  | finite sign mantissa exponent hpos =>
    obtain ⟨-, -, -, hexponent⟩ := unpack_eq_finite hunpack
    refine ⟨fun h => ?_, Bool.noConfusion⟩
    have hlarge : 972 ≤ exponent := h
    omega

/-- The conversion of an integer leaves the finite doubles exactly from half-way between the
greatest of them and the next power of two on. -/
theorem isInf_ofInt_iff (n : Int) :
    (Float.ofInt n).isInf = true ↔ 2 ^ 1024 - 2 ^ 970 ≤ n.natAbs := by
  have hless : ∀ {a b c : Nat}, a < c → b < c → 2 ^ a ≤ 2 ^ c - 2 ^ b := by
    intro a b c ha hb
    have hfirst : 2 * 2 ^ a ≤ 2 ^ c := by
      rw [← pow_succ']
      exact Nat.pow_le_pow_right (by decide) ha
    have hsecond : 2 * 2 ^ b ≤ 2 ^ c := by
      rw [← pow_succ']
      exact Nat.pow_le_pow_right (by decide) hb
    omega
  have hsmall : (2 : Nat) ^ 53 ≤ 2 ^ 1024 - 2 ^ 970 :=
    hless (show 53 < 1024 by decide) (show 970 < 1024 by decide)
  have hnat : ∀ m : Nat, (Float.ofNat m).isInf = true ↔ 2 ^ 1024 - 2 ^ 970 ≤ m := by
    intro m
    by_cases hm : 2 ^ 53 ≤ m
    · exact isInf_ofNat_iff_of_le hm
    · rw [isInf_ofNat_of_lt (not_le.mp hm)]
      refine ⟨Bool.noConfusion, fun h => absurd (le_trans hsmall h) hm⟩
  cases n with
  | ofNat m => exact hnat m
  | negSucc m =>
    change (Float.ofNat (m + 1)).neg.isInf = true ↔ _
    rw [isInf_neg]
    exact hnat (m + 1)

end Pddl.Number
