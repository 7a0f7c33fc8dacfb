import Mathlib
import LispScript.Main

/-!
Counts as doubles. Below two to the power of 53 every natural number is a double of its own, so the
sums, differences and comparisons of counts that scripts compute are exact.
-/

namespace LispScript.Number

open Float.Model Float.Model.UnpackedFloat

/-- The number of the first count that may share its double with another one. -/
def exactLimit : Nat := 2 ^ 53

section Shifts

theorem log2_mul_two_pow {n : Nat} (positive : 0 < n) (k : Nat) :
    (n * 2 ^ k).log2 = n.log2 + k := by
  have nonzero : n ≠ 0 := by omega
  have productNonzero : n * 2 ^ k ≠ 0 := by positivity
  rw [Nat.log2_eq_iff productNonzero]
  constructor
  · rw [Nat.pow_add]
    exact Nat.mul_le_mul_right _ (Nat.log2_self_le nonzero)
  · rw [show n.log2 + k + 1 = n.log2 + 1 + k by omega, Nat.pow_add]
    exact Nat.mul_lt_mul_of_pos_right Nat.lt_log2_self (by positivity)

theorem log2_le_of_lt_exactLimit {n : Nat} (small : n < exactLimit) : n.log2 ≤ 52 := by
  rcases Nat.eq_zero_or_pos n with rfl | positive
  · simp
  · have below := (Nat.log2_lt (by omega)).mpr small
    omega

/-- The significand of a count, scaled so that its leading bit is the implicit one. -/
def significandOf (n : Nat) : Nat := n * 2 ^ (52 - n.log2)

theorem significandOf_bounds {n : Nat} (positive : 0 < n) (small : n < exactLimit) :
    2 ^ 52 ≤ significandOf n ∧ significandOf n < 2 ^ 53 := by
  have bound := log2_le_of_lt_exactLimit small
  have low := Nat.log2_self_le (show n ≠ 0 by omega)
  have high : n < 2 ^ (n.log2 + 1) := Nat.lt_log2_self
  constructor
  · calc 2 ^ 52 = 2 ^ n.log2 * 2 ^ (52 - n.log2) := by rw [← Nat.pow_add]; congr 1; omega
      _ ≤ n * 2 ^ (52 - n.log2) := Nat.mul_le_mul_right _ low
  · calc n * 2 ^ (52 - n.log2) < 2 ^ (n.log2 + 1) * 2 ^ (52 - n.log2) :=
          Nat.mul_lt_mul_of_pos_right high (by positivity)
      _ = 2 ^ 53 := by rw [← Nat.pow_add]; congr 1; omega

/-- The unpacked form of a count. -/
def unpackedCount (n : Nat) : UnpackedFloat :=
  if positive : 0 < n then
    .finite .positive (significandOf n) ((n.log2 : Int) - 52)
      (Nat.mul_pos positive (by positivity))
  else .zero .positive

theorem shiftRight_mantissa (extended : ExtendedMantissa) (count : Nat) :
    (extended >>> count).mantissa = extended.mantissa / 2 ^ count := by
  induction count with
  | zero => simp [HShiftRight.hShiftRight, Nat.repeat]
  | succ count ih =>
      change (extended >>> count).mantissa / 2 = _
      rw [ih, Nat.div_div_eq_div_mul, Nat.pow_succ]

/-- Nothing is lost by shifting out zeros. -/
theorem shiftRight_exact (mantissa count : Nat) :
    (⟨mantissa * 2 ^ count, false, false⟩ : ExtendedMantissa) >>> count =
      ⟨mantissa, false, false⟩ := by
  induction count generalizing mantissa with
  | zero => simp [HShiftRight.hShiftRight, Nat.repeat]
  | succ count ih =>
      have shifted := ih (mantissa * 2)
      rw [Nat.mul_assoc, ← Nat.pow_succ'] at shifted
      change ((⟨mantissa * 2 ^ (count + 1), false, false⟩ : ExtendedMantissa) >>>
        count).shiftRightOne = _
      rw [shifted]
      simp [ExtendedMantissa.shiftRightOne]

theorem targetExponent_count {n : Nat} (k : Nat) (positive : 0 < n) :
    Format.binary64.targetExponent (totalExponent (n * 2 ^ k) (-k)) = (n.log2 : Int) - 52 := by
  simp only [Format.targetExponent, totalExponent, log2_mul_two_pow positive,
    Format.mantissaBits, Format.minExponent]
  push_cast
  omega

theorem shiftToTargetExponent_count {n : Nat} (k : Nat) (positive : 0 < n)
    (scaled : 52 - n.log2 ≤ k) (small : n < exactLimit) :
    shiftToTargetExponent Format.binary64 (n * 2 ^ k) (-k) .exact =
      (⟨significandOf n, false, false⟩, (n.log2 : Int) - 52) := by
  have bound := log2_le_of_lt_exactLimit small
  have amount : ((n.log2 : Int) - 52 - -k).toNat = k - (52 - n.log2) := by omega
  have split : n * 2 ^ k = significandOf n * 2 ^ (k - (52 - n.log2)) := by
    rw [significandOf, Nat.mul_assoc, ← Nat.pow_add]
    congr 2
    omega
  unfold shiftToTargetExponent shiftToExponent
  rw [targetExponent_count k positive]
  simp only [amount, split, ExtendedMantissa.ofMantissaAndAccuracy, shiftRight_exact,
    Prod.mk.injEq, true_and]
  omega

/-- Rounding keeps a count as it is. -/
theorem roundWithAccuracy_count {n : Nat} (k : Nat) (positive : 0 < n)
    (scaled : 52 - n.log2 ≤ k) (small : n < exactLimit) :
    roundWithAccuracy Format.binary64 .positive (n * 2 ^ k) (-k) .exact = unpackedCount n := by
  have bound := log2_le_of_lt_exactLimit small
  have exponent : (-((52 - n.log2 : Nat) : Int)) = (n.log2 : Int) - 52 := by omega
  have again : shiftToTargetExponent Format.binary64 (significandOf n) ((n.log2 : Int) - 52) .exact =
      (⟨significandOf n, false, false⟩, (n.log2 : Int) - 52) := by
    have shifted := shiftToTargetExponent_count (52 - n.log2) positive (Nat.le_refl _) small
    rw [exponent] at shifted
    exact shifted
  have nonzero : significandOf n ≠ 0 := by
    have := (significandOf_bounds positive small).1
    omega
  unfold roundWithAccuracy
  simp only [shiftToTargetExponent_count k positive scaled small,
    ExtendedMantissa.roundedMantissa, ExtendedMantissa.accuracy, Accuracy.roundToNearestEven,
    again, nonzero, unpackedCount, positive, dite_true, dite_false]

theorem round_count {n : Nat} (k : Nat) (positive : 0 < n) (small : n < exactLimit) :
    round Format.binary64 .positive (n * 2 ^ k) (-k) = unpackedCount n := by
  have bound := log2_le_of_lt_exactLimit small
  unfold UnpackedFloat.round
  rw [targetExponent_count k positive]
  simp only [decreaseExponent, Nat.shiftLeft_eq]
  by_cases scaled : 52 - n.log2 ≤ k
  · have amount : (-(k : Int) - ((n.log2 : Int) - 52)).toNat = 0 := by omega
    rw [amount]
    simpa using roundWithAccuracy_count k positive scaled small
  · have amount : (-(k : Int) - ((n.log2 : Int) - 52)).toNat = 52 - n.log2 - k := by omega
    rw [amount, Nat.mul_assoc, ← Nat.pow_add]
    have rounded := roundWithAccuracy_count (52 - n.log2) positive (Nat.le_refl _) small
    convert rounded using 2
    · congr 2
      omega
    · omega

theorem normalize_count {n : Nat} (k : Nat) (small : n < exactLimit) :
    normalize Format.binary64 ((n * 2 ^ k : Nat) : Int) (-k) .positive = unpackedCount n := by
  rcases Nat.eq_zero_or_pos n with rfl | positive
  · simp [UnpackedFloat.normalize, unpackedCount]
  · have product : 0 < n * 2 ^ k := Nat.mul_pos positive (by positivity)
    have greater : compare ((n * 2 ^ k : Nat) : Int) 0 = .gt := by
      rw [Int.compare_eq_gt]
      exact_mod_cast product
    unfold UnpackedFloat.normalize
    rw [greater, Int.toNat_natCast]
    exact round_count k positive small

end Shifts

section Packing

theorem toNat_packComponents (biased fraction : Nat) (biasedBound : biased < 2048)
    (fractionBound : fraction < 2 ^ 52) :
    (packComponents Format.binary64 .positive (BitVec.ofNat 11 biased)
      (BitVec.ofNat 52 fraction)).toNat = biased * 2 ^ 52 + fraction := by
  have biasedNat : (BitVec.ofNat 11 biased).toNat = biased := by
    rw [BitVec.toNat_ofNat]; exact Nat.mod_eq_of_lt biasedBound
  have fractionNat : (BitVec.ofNat 52 fraction).toNat = fraction := by
    rw [BitVec.toNat_ofNat]; exact Nat.mod_eq_of_lt fractionBound
  simp only [packComponents, BitVec.toNat_append, biasedNat, fractionNat]
  rw [← Nat.shiftLeft_add_eq_or_of_lt fractionBound]
  simp [Sign.toBitVec, Nat.shiftLeft_eq]

theorem pack_normal {sign : Sign} {significand : Nat} {exponent : Int} (positive : 0 < significand)
    (low : 2 ^ 52 ≤ significand) (high : significand < 2 ^ 53) (least : -1074 ≤ exponent)
    (greatest : exponent ≤ 971) : (UnpackedFloat.pack Format.binary64
      (.finite sign significand exponent positive)) =
      packComponents Format.binary64 sign (BitVec.ofNat 11 (exponent + 1075).toNat)
      (BitVec.ofNat 52 (significand - 2 ^ 52)) := by
  have leading : significand.log2 = 52 := by
    rw [Nat.log2_eq_iff (by omega)]
    exact ⟨low, high⟩
  have biased : (exponent + ((2 ^ (11 - 1) - 1 : Nat) : Int) + ((52 : Nat) : Int)).toNat =
      (exponent + 1075).toNat := by
    congr 1
    omega
  have implicit : BitVec.ofNat 52 significand = BitVec.ofNat 52 (significand - 2 ^ 52) := by
    apply BitVec.eq_of_toNat_eq
    simp only [BitVec.toNat_ofNat]
    omega
  unfold UnpackedFloat.pack
  simp only [Format.exponentBias, Format.mantissaBits, leading, biased, implicit]
  rw [if_neg (by omega), if_pos trivial]

theorem pack_overflow {significand : Nat} {exponent : Int} (positive : 0 < significand)
    (greatest : 971 < exponent) :
    UnpackedFloat.pack Format.binary64 (.finite .positive significand exponent positive) =
      packedInfinity Format.binary64 .positive := by
  have biased : (exponent + ((2 ^ (11 - 1) - 1 : Nat) : Int) + ((52 : Nat) : Int)).toNat =
      (exponent + 1075).toNat := by
    congr 1
    omega
  have tooLarge : 2 ^ 11 ≤ (exponent + 1075).toNat + 1 := by omega
  simp only [UnpackedFloat.pack, Format.exponentBias, biased, if_pos tooLarge]

theorem unpackSign_packComponents {sign exponent mantissa} :
    unpackSign (packComponents Format.binary64 sign exponent mantissa) = sign.toBitVec := by
  ext i hi
  simp [unpackSign, packComponents]
  grind

theorem unpack_packComponents {biased fraction : Nat} (biasedPositive : 0 < biased)
    (biasedBound : biased < 2047) (fractionBound : fraction < 2 ^ 52) :
    UnpackedFloat.unpack Format.binary64
      (packComponents Format.binary64 .positive (BitVec.ofNat 11 biased)
        (BitVec.ofNat 52 fraction)) =
      .finite .positive (2 ^ 52 + fraction) ((biased : Int) - 1075) (by omega) := by
  have biasedNat : (BitVec.ofNat 11 biased).toNat = biased := by
    rw [BitVec.toNat_ofNat]; exact Nat.mod_eq_of_lt (by omega)
  have fractionNat : (BitVec.ofNat 52 fraction).toNat = fraction := by
    rw [BitVec.toNat_ofNat]; exact Nat.mod_eq_of_lt fractionBound
  have notOnes : BitVec.ofNat 11 biased ≠ -1#11 := by
    intro equal
    have bits := congrArg BitVec.toNat equal
    rw [biasedNat] at bits
    have ones : (-1#11).toNat = 2047 := rfl
    omega
  have notZero : BitVec.ofNat 11 biased ≠ 0#11 := by
    intro equal
    have bits := congrArg BitVec.toNat equal
    rw [biasedNat] at bits
    have zero : (0#11).toNat = 0 := rfl
    omega
  have significandNat : (1#1 ++ BitVec.ofNat 52 fraction).toNat = 2 ^ 52 + fraction := by
    rw [BitVec.toNat_append, fractionNat, ← Nat.shiftLeft_add_eq_or_of_lt fractionBound]
    rfl
  unfold UnpackedFloat.unpack
  simp only [unpackMantissa_packComponents, unpackExponent_packComponents,
    unpackSign_packComponents, if_neg notOnes, if_neg notZero, significandNat, biasedNat]
  rfl

theorem unpack_pack_normal {significand : Nat} {exponent : Int} (positive : 0 < significand)
    (low : 2 ^ 52 ≤ significand) (high : significand < 2 ^ 53) (least : -1074 ≤ exponent)
    (greatest : exponent ≤ 971) :
    (Float.Model.pack (.finite .positive significand exponent positive)).unpack =
      .finite .positive significand exponent positive := by
  change UnpackedFloat.unpack Format.binary64 (UnpackedFloat.pack Format.binary64
    (.finite .positive significand exponent positive)) = _
  rw [pack_normal positive low high least greatest,
    unpack_packComponents (by omega) (by omega) (by omega)]
  simp only [UnpackedFloat.finite.injEq, true_and]
  omega

theorem unpack_pack_count {n : Nat} (small : n < exactLimit) :
    (Float.Model.pack (unpackedCount n)).unpack = unpackedCount n := by
  have bound := log2_le_of_lt_exactLimit small
  rcases Nat.eq_zero_or_pos n with rfl | positive
  · simp only [unpackedCount, Nat.lt_irrefl, dite_false]
    rfl
  · have bounds := significandOf_bounds positive small
    simp only [unpackedCount, positive, dite_true]
    exact unpack_pack_normal _ bounds.1 bounds.2 (by omega) (by omega)

/-- A count is converted without loss. -/
theorem ofNat_eq_pack {n : Nat} (small : n < exactLimit) :
    Float.ofNat n = .ofModel (Float.Model.pack (unpackedCount n)) := by
  have converted : (Nat.toUInt64 n).toFloat = .ofModel (Float.Model.pack (unpackedCount n)) := by
    have word : (Nat.toUInt64 n).toNat = n := by
      simp only [Nat.toUInt64, UInt64.toNat_ofNat']
      exact Nat.mod_eq_of_lt (Nat.lt_trans small (by decide))
    have normalized := normalize_count 0 small
    simp only [Nat.pow_zero, Nat.mul_one] at normalized
    change Float.ofModel (Float.Model.pack (normalize Format.binary64
      (((Nat.toUInt64 n).toNat : Nat) : Int) 0 .positive)) = _
    rw [word]
    exact congrArg (fun f => Float.ofModel (Float.Model.pack f)) normalized
  have one : (Float.ofBits 0x3FF0000000000000).toModel.unpack =
      .finite .positive (2 ^ 52) (-52) (by decide) := rfl
  change Float.ofScientific n false 0 = _
  rw [Float.ofScientific, dif_pos ⟨small, by omega⟩]
  change (Nat.toUInt64 n).toFloat * Float.ofBits 0x3FF0000000000000 = _
  rw [converted]
  change Float.ofModel (Float.Model.pack (UnpackedFloat.mul Format.binary64
    (Float.Model.pack (unpackedCount n)).unpack (Float.ofBits 0x3FF0000000000000).toModel.unpack)) = _
  rw [unpack_pack_count small, one]
  rcases Nat.eq_zero_or_pos n with rfl | positive
  · rfl
  · have bound := log2_le_of_lt_exactLimit small
    have rounded := roundWithAccuracy_count (104 - n.log2) positive (by omega) small
    have product : n * 2 ^ (104 - n.log2) = significandOf n * 2 ^ 52 := by
      rw [significandOf, Nat.mul_assoc, ← Nat.pow_add]
      congr 2
      omega
    have scaled : ((n.log2 : Int) - 52) + -52 = -((104 - n.log2 : Nat) : Int) := by omega
    have multiplied : UnpackedFloat.mul Format.binary64 (unpackedCount n)
        (.finite .positive (2 ^ 52) (-52) (by decide)) = unpackedCount n := by
      rw [product, ← scaled] at rounded
      conv_rhs => rw [← rounded]
      simp only [unpackedCount, positive, dite_true, UnpackedFloat.mul]
      rfl
    rw [multiplied]

end Packing

section Arithmetic

variable {a b : Nat}

theorem decreaseExponent_count {n k : Nat} (scaled : 52 - n.log2 ≤ k) (small : n < exactLimit) :
    (decreaseExponent (significandOf n) ((n.log2 : Int) - 52) (-k)).1 = n * 2 ^ k := by
  have bound := log2_le_of_lt_exactLimit small
  simp only [decreaseExponent, Nat.shiftLeft_eq, significandOf, Nat.mul_assoc, ← Nat.pow_add]
  congr 2
  omega

/-- The exponents of two counts have a common lower bound to which both can be scaled. -/
theorem min_exponent_eq {a b : Nat} (smallA : a < exactLimit) (smallB : b < exactLimit) :
    ∃ k : Nat, min ((a.log2 : Int) - 52) ((b.log2 : Int) - 52) = -k ∧
      52 - a.log2 ≤ k ∧ 52 - b.log2 ≤ k := by
  have boundA := log2_le_of_lt_exactLimit smallA
  have boundB := log2_le_of_lt_exactLimit smallB
  exact ⟨52 - min a.log2 b.log2, by omega, by omega, by omega⟩

/-- An operation on doubles that are counts is the operation on their unpacked forms. -/
theorem add_eq_pack (smallA : a < exactLimit) (smallB : b < exactLimit) :
    Float.ofNat a + Float.ofNat b = .ofModel (Float.Model.pack
      (UnpackedFloat.add Format.binary64 (unpackedCount a) (unpackedCount b))) := by
  rw [ofNat_eq_pack smallA, ofNat_eq_pack smallB]
  change Float.ofModel (Float.Model.pack (UnpackedFloat.add Format.binary64
    (Float.Model.pack (unpackedCount a)).unpack (Float.Model.pack (unpackedCount b)).unpack)) = _
  rw [unpack_pack_count smallA, unpack_pack_count smallB]

theorem sub_eq_pack (smallA : a < exactLimit) (smallB : b < exactLimit) :
    Float.ofNat a - Float.ofNat b = .ofModel (Float.Model.pack
      (UnpackedFloat.sub Format.binary64 (unpackedCount a) (unpackedCount b))) := by
  rw [ofNat_eq_pack smallA, ofNat_eq_pack smallB]
  change Float.ofModel (Float.Model.pack (UnpackedFloat.sub Format.binary64
    (Float.Model.pack (unpackedCount a)).unpack (Float.Model.pack (unpackedCount b)).unpack)) = _
  rw [unpack_pack_count smallA, unpack_pack_count smallB]

theorem ofNat_add (small : a + b < exactLimit) :
    Float.ofNat a + Float.ofNat b = Float.ofNat (a + b) := by
  have smallA : a < exactLimit := by omega
  have smallB : b < exactLimit := by omega
  rw [add_eq_pack smallA smallB, ofNat_eq_pack small]
  congr 2
  rcases Nat.eq_zero_or_pos a with rfl | positiveA
  · rcases Nat.eq_zero_or_pos b with rfl | positiveB
    · rfl
    · simp [unpackedCount, positiveB, UnpackedFloat.add]
  · rcases Nat.eq_zero_or_pos b with rfl | positiveB
    · simp [unpackedCount, positiveA, UnpackedFloat.add]
    · obtain ⟨k, exponent, scaledA, scaledB⟩ := min_exponent_eq smallA smallB
      have total : (Sign.positive.apply ((a * 2 ^ k : Nat) : Int) +
          Sign.positive.apply ((b * 2 ^ k : Nat) : Int)) = (((a + b) * 2 ^ k : Nat) : Int) := by
        simp only [Sign.apply]
        push_cast
        ring
      rw [← normalize_count k small, ← total]
      simp only [unpackedCount, positiveA, positiveB, dite_true, UnpackedFloat.add, exponent,
        decreaseExponent_count scaledA smallA, decreaseExponent_count scaledB smallB]

theorem ofNat_sub (ordered : b ≤ a) (small : a < exactLimit) :
    Float.ofNat a - Float.ofNat b = Float.ofNat (a - b) := by
  have smallB : b < exactLimit := by omega
  have smallDifference : a - b < exactLimit := by omega
  rw [sub_eq_pack small smallB, ofNat_eq_pack smallDifference]
  congr 2
  rcases Nat.eq_zero_or_pos b with rfl | positiveB
  · rcases Nat.eq_zero_or_pos a with rfl | positiveA
    · rfl
    · simp [unpackedCount, positiveA, UnpackedFloat.sub]
  · have positiveA : 0 < a := by omega
    obtain ⟨k, exponent, scaledA, scaledB⟩ := min_exponent_eq small smallB
    have total : (Sign.positive.apply ((a * 2 ^ k : Nat) : Int) -
        Sign.positive.apply ((b * 2 ^ k : Nat) : Int)) = (((a - b) * 2 ^ k : Nat) : Int) := by
      simp only [Sign.apply]
      rw [Nat.sub_mul, Int.ofNat_sub (Nat.mul_le_mul_right _ ordered)]
    rw [← normalize_count k smallDifference, ← total]
    simp only [unpackedCount, positiveA, positiveB, dite_true, UnpackedFloat.sub, exponent,
      decreaseExponent_count scaledA small, decreaseExponent_count scaledB smallB]

end Arithmetic

section Rounding

theorem roundedMantissa_bounds (extended : ExtendedMantissa) :
    extended.mantissa ≤ extended.roundedMantissa ∧
      extended.roundedMantissa ≤ extended.mantissa + 1 := by
  obtain ⟨mantissa, roundBit, stickyBit⟩ := extended
  cases roundBit <;> cases stickyBit <;>
    simp only [ExtendedMantissa.roundedMantissa, ExtendedMantissa.accuracy,
      Accuracy.roundToNearestEven] <;> omega

/-- The second shift of a rounding, which a carry out of the significand asks for. -/
theorem shiftToTargetExponent_rounded {significand : Nat} (exponent : Int)
    (low : 2 ^ 52 ≤ significand) (high : significand ≤ 2 ^ 53) (least : -1074 ≤ exponent) :
    ∃ shifted later, shiftToTargetExponent Format.binary64 significand exponent .exact =
        (⟨shifted, false, false⟩, later) ∧
      2 ^ 52 ≤ shifted ∧ shifted < 2 ^ 53 ∧ exponent ≤ later := by
  by_cases carry : significand = 2 ^ 53
  · subst carry
    have target : Format.binary64.targetExponent (totalExponent (2 ^ 53) exponent) =
        exponent + 1 := by
      simp only [Format.targetExponent, totalExponent, Nat.log2_two_pow, Format.mantissaBits,
        Format.minExponent]
      push_cast
      omega
    have amount : (exponent + 1 - exponent).toNat = 1 := by omega
    refine ⟨2 ^ 52, exponent + 1, ?_, by omega, by omega, by omega⟩
    unfold shiftToTargetExponent shiftToExponent
    rw [target]
    simp only [amount, ExtendedMantissa.ofMantissaAndAccuracy]
    exact Prod.ext (shiftRight_exact (2 ^ 52) 1) rfl
  · have leading : significand.log2 = 52 := by
      rw [Nat.log2_eq_iff (by omega)]
      exact ⟨low, by omega⟩
    have target : Format.binary64.targetExponent (totalExponent significand exponent) =
        exponent := by
      simp only [Format.targetExponent, totalExponent, leading, Format.mantissaBits,
        Format.minExponent]
      push_cast
      omega
    have amount : (exponent - exponent).toNat = 0 := by omega
    refine ⟨significand, exponent, ?_, low, by omega, Int.le_refl _⟩
    unfold shiftToTargetExponent shiftToExponent
    rw [target]
    simp only [amount, ExtendedMantissa.ofMantissaAndAccuracy]
    exact Prod.ext rfl (by simp)

/-- A count from the limit on becomes a double whose unit is two at least. -/
theorem ofNat_large {k : Nat} (large : exactLimit ≤ k) :
    ∃ significand exponent, ∃ positive : 0 < significand,
      Float.ofNat k = .ofModel (Float.Model.pack
        (.finite .positive significand exponent positive)) ∧
      2 ^ 52 ≤ significand ∧ significand < 2 ^ 53 ∧ 1 ≤ exponent := by
  have nonzero : k ≠ 0 := by
    have : 0 < exactLimit := by decide
    omega
  have leading : 53 ≤ k.log2 := (Nat.le_log2 nonzero).mpr large
  have quotientLow : 2 ^ 52 ≤ k * 2 ^ 53 / 2 ^ (k.log2 + 1) := by
    rw [Nat.le_div_iff_mul_le (by positivity), ← Nat.pow_add]
    calc 2 ^ (52 + (k.log2 + 1)) = 2 ^ k.log2 * 2 ^ 53 := by rw [← Nat.pow_add]; congr 1; omega
      _ ≤ k * 2 ^ 53 := Nat.mul_le_mul_right _ (Nat.log2_self_le nonzero)
  have quotientHigh : k * 2 ^ 53 / 2 ^ (k.log2 + 1) < 2 ^ 53 := by
    rw [Nat.div_lt_iff_lt_mul (by positivity), Nat.mul_comm (2 ^ 53)]
    exact Nat.mul_lt_mul_of_pos_right Nat.lt_log2_self (by positivity)
  have target : Format.binary64.targetExponent (totalExponent (k * 2 ^ 53) (-53)) =
      (k.log2 : Int) - 52 := by
    simp only [Format.targetExponent, totalExponent, log2_mul_two_pow (Nat.pos_of_ne_zero nonzero),
      Format.mantissaBits, Format.minExponent]
    push_cast
    omega
  have amount : ((k.log2 : Int) - 52 - -53).toNat = k.log2 + 1 := by omega
  have first : shiftToTargetExponent Format.binary64 (k * 2 ^ 53) (-53) .exact =
      ((⟨k * 2 ^ 53, false, false⟩ : ExtendedMantissa) >>> (k.log2 + 1),
        -53 + ((k.log2 + 1 : Nat) : Int)) := by
    unfold shiftToTargetExponent shiftToExponent
    rw [target]
    simp only [amount]
    rfl
  have rounding := roundedMantissa_bounds
    ((⟨k * 2 ^ 53, false, false⟩ : ExtendedMantissa) >>> (k.log2 + 1))
  rw [shiftRight_mantissa] at rounding
  dsimp only at rounding
  obtain ⟨significand, exponent, second, low, high, later⟩ :=
    shiftToTargetExponent_rounded (-53 + ((k.log2 + 1 : Nat) : Int))
      (Nat.le_trans quotientLow rounding.1) (by omega) (by omega)
  refine ⟨significand, exponent, by omega, ?_, low, high, by omega⟩
  have converted : UnpackedFloat.ofScientific Format.binary64 k 0 =
      roundWithAccuracy Format.binary64 .positive (k * 2 ^ 53) (-53) .exact := by
    unfold UnpackedFloat.ofScientific
    rw [dif_neg nonzero, if_neg (by decide), if_neg (by push_cast; omega), if_pos (by decide)]
    simp only [UnpackedFloat.mul, Nat.shiftLeft_eq, Int.toNat_zero, Nat.pow_zero, Nat.mul_one,
      Int.add_zero]
    rfl
  change Float.ofScientific k false 0 = _
  rw [Float.ofScientific, dif_neg (by unfold exactLimit at large; omega)]
  change Float.ofModel (Float.Model.pack (UnpackedFloat.ofScientific Format.binary64 k 0)) = _
  rw [converted]
  congr 2
  unfold roundWithAccuracy
  simp only [first, second, Nat.ne_of_gt (show 0 < significand by omega), dite_false]

/-- The unpacked form of a count from the limit on. -/
theorem unpack_large {k : Nat} (large : exactLimit ≤ k) :
    (Float.ofNat k).toModel.unpack = .infinity .positive ∨
      ∃ significand exponent, ∃ positive : 0 < significand,
        (Float.ofNat k).toModel.unpack = .finite .positive significand exponent positive ∧
        2 ^ 52 ≤ significand ∧ 1 ≤ exponent := by
  obtain ⟨significand, exponent, positive, converted, low, high, least⟩ := ofNat_large large
  rw [converted]
  by_cases finite : exponent ≤ 971
  · exact .inr ⟨significand, exponent, positive,
      unpack_pack_normal positive low high (by omega) finite, low, least⟩
  · refine .inl ?_
    change UnpackedFloat.unpack Format.binary64 (UnpackedFloat.pack Format.binary64
      (.finite .positive significand exponent positive)) = _
    rw [pack_overflow positive (by omega)]
    rfl

end Rounding

section Comparison

variable {a b : Nat}

theorem compare_unpackedCount (smallA : a < exactLimit) (smallB : b < exactLimit) :
    (unpackedCount a).compare (unpackedCount b) = some (compare a b) := by
  rcases Nat.eq_zero_or_pos a with rfl | positiveA
  · rcases Nat.eq_zero_or_pos b with rfl | positiveB
    · rfl
    · simp [unpackedCount, positiveB, UnpackedFloat.compare, Nat.compare_eq_lt.mpr positiveB]
  · rcases Nat.eq_zero_or_pos b with rfl | positiveB
    · simp [unpackedCount, positiveA, UnpackedFloat.compare, Nat.compare_eq_gt.mpr positiveA]
    · simp only [unpackedCount, positiveA, positiveB, dite_true, UnpackedFloat.compare,
        Option.some.injEq]
      have lowA := Nat.log2_self_le (show a ≠ 0 by omega)
      have lowB := Nat.log2_self_le (show b ≠ 0 by omega)
      have highA : a < 2 ^ (a.log2 + 1) := Nat.lt_log2_self
      have highB : b < 2 ^ (b.log2 + 1) := Nat.lt_log2_self
      rcases Nat.lt_trichotomy a.log2 b.log2 with less | equal | greater
      · have ordered : 2 ^ (a.log2 + 1) ≤ 2 ^ b.log2 := Nat.pow_le_pow_right (by omega) less
        have exponents : compare ((a.log2 : Int) - 52) ((b.log2 : Int) - 52) = .lt :=
          Int.compare_eq_lt.mpr (by omega)
        rw [exponents, Nat.compare_eq_lt.mpr (show a < b by omega)]
        rfl
      · have exponents : compare ((a.log2 : Int) - 52) ((b.log2 : Int) - 52) = .eq :=
          Int.compare_eq_eq.mpr (by omega)
        have scale : 0 < 2 ^ (52 - b.log2) := by positivity
        rw [exponents, significandOf, significandOf, equal]
        simp only [Ordering.then]
        rcases Nat.lt_trichotomy a b with less | same | greater
        · rw [Nat.compare_eq_lt.mpr less, Nat.compare_eq_lt.mpr
            (Nat.mul_lt_mul_of_pos_right less scale)]
        · rw [same]
          simp
        · rw [Nat.compare_eq_gt.mpr greater, Nat.compare_eq_gt.mpr
            (Nat.mul_lt_mul_of_pos_right greater scale)]
      · have ordered : 2 ^ (b.log2 + 1) ≤ 2 ^ a.log2 := Nat.pow_le_pow_right (by omega) greater
        have exponents : compare ((a.log2 : Int) - 52) ((b.log2 : Int) - 52) = .gt :=
          Int.compare_eq_gt.mpr (by omega)
        rw [exponents, Nat.compare_eq_gt.mpr (show b < a by omega)]
        rfl

/-- A count below the limit is less than any count from the limit on. -/
theorem compare_large {k : Nat} (small : a < exactLimit) (large : exactLimit ≤ k) :
    (Float.ofNat a).toModel.unpack.compare (Float.ofNat k).toModel.unpack = some .lt ∧
      (Float.ofNat k).toModel.unpack.compare (Float.ofNat a).toModel.unpack = some .gt := by
  have bound := log2_le_of_lt_exactLimit small
  rw [ofNat_eq_pack small]
  simp only [unpack_pack_count small]
  rcases unpack_large large with infinite | ⟨significand, exponent, positive, unpacked, -, least⟩
  · rw [infinite]
    rcases Nat.eq_zero_or_pos a with rfl | positiveA
    · simp [unpackedCount, UnpackedFloat.compare]
    · simp [unpackedCount, positiveA, UnpackedFloat.compare]
  · rw [unpacked]
    rcases Nat.eq_zero_or_pos a with rfl | positiveA
    · simp [unpackedCount, UnpackedFloat.compare]
    · have less : compare ((a.log2 : Int) - 52) exponent = .lt := Int.compare_eq_lt.mpr (by omega)
      have greater : compare exponent ((a.log2 : Int) - 52) = .gt :=
        Int.compare_eq_gt.mpr (by omega)
      simp [unpackedCount, positiveA, UnpackedFloat.compare, less, greater]

/-- The comparison of a count below the limit with any other. -/
theorem compare_ofNat (small : a < exactLimit) :
    (Float.ofNat a).toModel.unpack.compare (Float.ofNat b).toModel.unpack =
      some (compare a b) := by
  by_cases smallB : b < exactLimit
  · rw [ofNat_eq_pack small, ofNat_eq_pack smallB]
    simp only [unpack_pack_count small, unpack_pack_count smallB]
    exact compare_unpackedCount small smallB
  · rw [(compare_large small (by omega)).1, Nat.compare_eq_lt.mpr (by omega)]

theorem compare_ofNat_right (small : a < exactLimit) :
    (Float.ofNat b).toModel.unpack.compare (Float.ofNat a).toModel.unpack =
      some (compare b a) := by
  by_cases smallB : b < exactLimit
  · exact compare_ofNat smallB
  · rw [(compare_large small (by omega)).2, Nat.compare_eq_gt.mpr (by omega)]

theorem lt_iff_compare (x y : Float) :
    x < y ↔ x.toModel.unpack.compare y.toModel.unpack = some .lt := by
  change decide (x.toModel < y.toModel) = true ↔ _
  rw [decide_eq_true_iff]
  change (x.toModel.unpack.compare y.toModel.unpack == some .lt) = true ↔ _
  simp

theorem le_iff_compare (x y : Float) :
    x ≤ y ↔ (x.toModel.unpack.compare y.toModel.unpack).any (·.isLE) = true := by
  change decide (x.toModel ≤ y.toModel) = true ↔ _
  rw [decide_eq_true_iff]
  rfl

theorem beq_iff_compare (x y : Float) :
    (x == y) = true ↔ x.toModel.unpack.compare y.toModel.unpack = some .eq := by
  change (x.toModel.unpack.compare y.toModel.unpack == some .eq) = true ↔ _
  simp

theorem ofNat_lt_iff (small : a < exactLimit) : Float.ofNat a < Float.ofNat b ↔ a < b := by
  rw [lt_iff_compare, compare_ofNat small, Option.some.injEq, Nat.compare_eq_lt]

theorem lt_ofNat_iff (small : a < exactLimit) : Float.ofNat b < Float.ofNat a ↔ b < a := by
  rw [lt_iff_compare, compare_ofNat_right small, Option.some.injEq, Nat.compare_eq_lt]

theorem ofNat_le_iff (small : a < exactLimit) : Float.ofNat a ≤ Float.ofNat b ↔ a ≤ b := by
  rw [le_iff_compare, compare_ofNat small, Option.any_some, Nat.isLE_compare]

theorem le_ofNat_iff (small : a < exactLimit) : Float.ofNat b ≤ Float.ofNat a ↔ b ≤ a := by
  rw [le_iff_compare, compare_ofNat_right small, Option.any_some, Nat.isLE_compare]

theorem ofNat_beq_iff (small : a < exactLimit) :
    (Float.ofNat a == Float.ofNat b) = true ↔ a = b := by
  rw [beq_iff_compare, compare_ofNat small, Option.some.injEq, Nat.compare_eq_eq]

end Comparison

section Differences

variable {a b : Nat}

/-- Above zero. -/
def isPositive : UnpackedFloat → Bool
  | .infinity .positive | .finite .positive .. => true
  | _ => false

theorem not_positive_of_unpack {x : Float} (low : isPositive x.toModel.unpack = false) :
    ¬ Float.ofNat 0 < x := by
  have zero : (Float.ofNat 0).toModel.unpack = .zero .positive := by
    rw [ofNat_eq_pack (by decide)]
    exact unpack_pack_count (by decide)
  rw [lt_iff_compare, zero]
  cases unpacked : x.toModel.unpack with
  | notANumber | zero sign => simp [UnpackedFloat.compare]
  | infinity sign | finite sign =>
      rw [unpacked] at low
      cases sign with
      | positive => cases low
      | negative => simp [UnpackedFloat.compare]

theorem unpack_packComponents_negative (exponent : BitVec 11) (fraction : BitVec 52) :
    isPositive (UnpackedFloat.unpack Format.binary64
      (packComponents Format.binary64 .negative exponent fraction)) = false := by
  unfold UnpackedFloat.unpack
  simp only [unpackSign_packComponents]
  split
  · split <;> rfl
  · split
    · split <;> rfl
    · rfl

/-- Packing keeps the sign. -/
theorem unpack_pack_not_positive {f : UnpackedFloat} (low : isPositive f = false) :
    isPositive (Float.Model.pack f).unpack = false := by
  cases f with
  | notANumber => decide +kernel
  | zero sign => cases sign <;> decide +kernel
  | infinity sign =>
      cases sign with
      | positive => cases low
      | negative => decide +kernel
  | finite sign significand exponent positive =>
      cases sign with
      | positive => cases low
      | negative =>
          change isPositive (UnpackedFloat.unpack Format.binary64
            (UnpackedFloat.pack Format.binary64 _)) = false
          unfold UnpackedFloat.pack
          dsimp only
          split
          · exact unpack_packComponents_negative ..
          · split <;> exact unpack_packComponents_negative ..

theorem normalize_not_positive {significand : Int} (low : significand ≤ 0) (exponent : Int) :
    isPositive (UnpackedFloat.normalize Format.binary64 significand exponent .positive) = false := by
  unfold UnpackedFloat.normalize
  split
  · unfold UnpackedFloat.round roundWithAccuracy
    dsimp only
    split <;> rfl
  · rfl
  · rename_i greater
    exact absurd (Int.compare_eq_gt.mp greater) (by omega)

theorem sub_not_positive (ordered : a ≤ b) (small : a < exactLimit) :
    isPositive (UnpackedFloat.sub Format.binary64 (unpackedCount a)
      (Float.ofNat b).toModel.unpack) = false := by
  by_cases smallB : b < exactLimit
  · rw [ofNat_eq_pack smallB]
    change isPositive (UnpackedFloat.sub Format.binary64 (unpackedCount a)
      (Float.Model.pack (unpackedCount b)).unpack) = false
    rw [unpack_pack_count smallB]
    rcases Nat.eq_zero_or_pos a with rfl | positiveA
    · rcases Nat.eq_zero_or_pos b with rfl | positiveB
      · rfl
      · simp [unpackedCount, positiveB, UnpackedFloat.sub]
        rfl
    · have positiveB : 0 < b := by omega
      obtain ⟨k, exponent, scaledA, scaledB⟩ := min_exponent_eq small smallB
      simp only [unpackedCount, positiveA, positiveB, dite_true, UnpackedFloat.sub, exponent,
        decreaseExponent_count scaledA small, decreaseExponent_count scaledB smallB]
      refine normalize_not_positive ?_ _
      have scaled := Nat.mul_le_mul_right (2 ^ k) ordered
      simp only [Sign.apply]
      omega
  · have bound := log2_le_of_lt_exactLimit small
    rcases unpack_large (Nat.le_of_not_lt smallB) with infinite | ⟨significand, exponent, positive,
      unpacked, low, least⟩
    · rw [infinite]
      rcases Nat.eq_zero_or_pos a with rfl | positiveA
      · rfl
      · simp [unpackedCount, positiveA, UnpackedFloat.sub]
        rfl
    · rw [unpacked]
      rcases Nat.eq_zero_or_pos a with rfl | positiveA
      · rfl
      · simp only [unpackedCount, positiveA, dite_true, UnpackedFloat.sub]
        refine normalize_not_positive ?_ _
        have higher := (significandOf_bounds positiveA small).2
        have smaller : min ((a.log2 : Int) - 52) exponent = (a.log2 : Int) - 52 := by omega
        obtain ⟨up, up_eq⟩ : ∃ up : Nat, (exponent - ((a.log2 : Int) - 52)).toNat = up + 1 :=
          ⟨(exponent - ((a.log2 : Int) - 52)).toNat - 1, by omega⟩
        have enough : 2 ^ 53 ≤ significand * 2 ^ (up + 1) :=
          calc 2 ^ 53 = 2 ^ 52 * (1 * 2) := by norm_num
            _ ≤ significand * (2 ^ up * 2) :=
                Nat.mul_le_mul low (Nat.mul_le_mul_right _ Nat.one_le_two_pow)
        simp only [smaller, decreaseExponent, Int.sub_self, Int.toNat_zero, up_eq, Nat.shiftLeft_eq,
          Sign.apply]
        omega

/-- A count less one that is not smaller is not above zero. -/
theorem not_positive_sub (ordered : a ≤ b) (small : a < exactLimit) :
    ¬ Float.ofNat 0 < Float.ofNat a - Float.ofNat b := by
  apply not_positive_of_unpack
  rw [ofNat_eq_pack small]
  change isPositive (Float.Model.pack (UnpackedFloat.sub Format.binary64
    (Float.Model.pack (unpackedCount a)).unpack (Float.ofNat b).toModel.unpack)).unpack = false
  rw [unpack_pack_count small]
  exact unpack_pack_not_positive (sub_not_positive ordered small)

end Differences

section Decoding

/-- The parts of a normal double. -/
theorem parts_of_normal {significand : Nat} (exponent : Int) (positive : 0 < significand)
    (low : 2 ^ 52 ≤ significand) (high : significand < 2 ^ 53) (least : -1074 ≤ exponent)
    (greatest : exponent ≤ 971) :
    let x : Float := .ofModel (Float.Model.pack (.finite .positive significand exponent positive))
    isNegative x = false ∧ isFinite x = true ∧ Binary.ofFloat x = ⟨significand, exponent⟩ := by
  intro x
  have bits : x.toBits.toNat = (exponent + 1075).toNat * 2 ^ 52 + (significand - 2 ^ 52) := by
    change (UnpackedFloat.pack Format.binary64
      (.finite .positive significand exponent positive)).toNat = _
    rw [pack_normal positive low high least greatest,
      toNat_packComponents _ _ (by omega) (by omega)]
  have leading : leadingBit.toNat = 2 ^ 52 := rfl
  have fraction : fractionBits x = significand - 2 ^ 52 := by
    unfold fractionBits
    rw [UInt64.toNat_mod, bits, leading]
    omega
  have exponentPart : exponentBits x = (exponent + 1075).toNat := by
    unfold exponentBits
    rw [UInt64.toNat_mod, UInt64.toNat_div, bits, leading]
    change _ % 2048 = _
    omega
  have sum : (x.toBits % leadingBit + leadingBit).toNat = significand := by
    rw [UInt64.toNat_add, UInt64.toNat_mod, bits, leading]
    omega
  refine ⟨?_, ?_, ?_⟩
  · unfold isNegative
    simp only [decide_eq_false_iff_not, UInt64.le_iff_toNat_le, bits]
    change ¬ 2 ^ 63 ≤ _
    omega
  · simp only [isFinite, exponentPart, bne_iff_ne, ne_eq]
    omega
  · unfold Binary.ofFloat
    have unbiased : ((exponent + 1075).toNat : Int) - 1075 = exponent := by omega
    rw [exponentPart, if_neg (by omega), sum, unbiased]

theorem truncate_count {n : Nat} (small : n < exactLimit) :
    (⟨significandOf n, (n.log2 : Int) - 52⟩ : Binary).truncate = n ∧
      (⟨significandOf n, (n.log2 : Int) - 52⟩ : Binary).isWhole = true := by
  obtain ⟨down, total⟩ := Nat.exists_eq_add_of_le (log2_le_of_lt_exactLimit small)
  have scale : significandOf n = n * 2 ^ down := by
    rw [significandOf]
    congr 2
    omega
  rw [scale]
  cases down with
  | zero =>
      have exponent : (n.log2 : Int) - 52 = Int.ofNat 0 := by
        rw [Int.ofNat_eq_natCast]
        omega
      rw [exponent]
      simp [Binary.truncate, Binary.isWhole]
  | succ down =>
      have exponent : (n.log2 : Int) - 52 = Int.negSucc down := by omega
      have shifted : (n * 2 ^ (down + 1)) >>> (down + 1) = n := by
        rw [Nat.shiftRight_eq_div_pow]
        exact Nat.mul_div_cancel _ (by positivity)
      rw [exponent]
      simp only [Binary.truncate, Binary.isWhole, shifted, Nat.shiftLeft_eq, beq_self_eq_true,
        and_self]

/-- A count is read back from its double. -/
theorem toCount_ofNat {n : Nat} (small : n < exactLimit) : toCount (Float.ofNat n) = n := by
  rw [ofNat_eq_pack small]
  rcases Nat.eq_zero_or_pos n with rfl | positive
  · rfl
  · have bounds := significandOf_bounds positive small
    have bound := log2_le_of_lt_exactLimit small
    obtain ⟨nonNegative, finite, parts⟩ := parts_of_normal ((n.log2 : Int) - 52)
      (Nat.lt_of_lt_of_le (by decide) bounds.1) bounds.1 bounds.2 (by omega) (by omega)
    simp only [unpackedCount, positive, dite_true]
    unfold toCount
    rw [nonNegative, finite, parts, (truncate_count small).1]
    simp only [Bool.false_eq_true, if_false, if_true]
    exact Nat.min_eq_left (Nat.le_of_lt (Nat.lt_trans small (by decide)))

theorem isWhole_ofNat {n : Nat} (small : n < exactLimit) : isWhole (Float.ofNat n) = true := by
  rw [ofNat_eq_pack small]
  rcases Nat.eq_zero_or_pos n with rfl | positive
  · decide +kernel
  · have bounds := significandOf_bounds positive small
    have bound := log2_le_of_lt_exactLimit small
    obtain ⟨-, finite, parts⟩ := parts_of_normal ((n.log2 : Int) - 52)
      (Nat.lt_of_lt_of_le (by decide) bounds.1) bounds.1 bounds.2 (by omega) (by omega)
    simp only [unpackedCount, positive, dite_true]
    unfold isWhole
    rw [finite, parts, (truncate_count small).2]
    rfl

theorem zero_le_ofNat (n : Nat) : (0 : Float) ≤ Float.ofNat n :=
  (ofNat_le_iff (a := 0) (by decide)).mpr (Nat.zero_le n)

/-- Counts from the limit on are read back as such. -/
theorem exactLimit_le_toCount {k : Nat} (large : exactLimit ≤ k) :
    exactLimit ≤ toCount (Float.ofNat k) := by
  obtain ⟨significand, exponent, positive, converted, low, high, least⟩ := ofNat_large large
  rw [converted]
  unfold toCount
  by_cases finite : exponent ≤ 971
  · obtain ⟨nonNegative, isFinite, parts⟩ :=
      parts_of_normal exponent positive low high (by omega) finite
    rw [nonNegative, isFinite, parts]
    simp only [Bool.false_eq_true, if_false, if_true]
    refine Nat.le_min.mpr ⟨?_, by decide⟩
    obtain ⟨up, rfl⟩ : ∃ up : Nat, exponent = Int.ofNat (up + 1) :=
      ⟨(exponent - 1).toNat, by simp only [Int.ofNat_eq_natCast]; omega⟩
    change 2 ^ 53 ≤ significand <<< (up + 1)
    rw [Nat.shiftLeft_eq, Nat.pow_succ]
    calc 2 ^ 53 = 2 ^ 52 * (1 * 2) := by norm_num
      _ ≤ significand * (2 ^ up * 2) :=
          Nat.mul_le_mul low (Nat.mul_le_mul_right _ Nat.one_le_two_pow)
  · have infinite : Float.Model.pack (.finite .positive significand exponent positive) =
        Float.Model.pack (.infinity .positive) := by
      unfold Float.Model.pack
      congr 2
      rw [pack_overflow positive (by omega)]
      rfl
    rw [infinite]
    decide +kernel

end Decoding

end LispScript.Number
