import LispScript.Proofs.Number

/-!
Doubles up to the sign of zero. A product with one is its other factor. A sum with zero is its other
summand, except that a zero can change its sign; sums and differences of numbers that are alike up
to that sign are alike up to it.
-/

namespace LispScript.Number

open Float.Model Float.Model.UnpackedFloat

section Unpacking

theorem toBitVec_ofBitVec (bit : BitVec 1) : (Sign.ofBitVec bit).toBitVec = bit := by
  revert bit
  decide

/-- A double is put together again from its parts. -/
theorem packComponents_unpack (bits : BitVec 64) :
    packComponents Format.binary64 (Sign.ofBitVec (@unpackSign Format.binary64 bits))
      (unpackExponent bits) (unpackMantissa bits) = bits := by
  rw [packComponents, toBitVec_ofBitVec]
  ext i hi
  simp [unpackSign, unpackExponent, unpackMantissa]
  grind

/-- The significands and exponents of the finite doubles other than zero. -/
structure IsFinitePair (significand : Nat) (exponent : Int) : Prop where
  high : significand < 2 ^ 53
  least : -1074 ≤ exponent
  greatest : exponent ≤ 971
  leading : 2 ^ 52 ≤ significand ∨ exponent = -1074

variable {sign : Sign} {significand : Nat} {exponent : Int} {positive : 0 < significand}

theorem toNat_ne_ones {bits : BitVec 11} (notOnes : bits ≠ -1#11) : bits.toNat < 2047 := by
  have bound := bits.isLt
  have ones : bits.toNat ≠ 2047 := fun same => notOnes (BitVec.eq_of_toNat_eq same)
  omega

theorem bias_eq : ((Format.binary64.exponentBias : Int) +
    (Format.binary64.mantissaBitsWithoutImplicit : Int)) = 1075 := by
  decide

/-- The significand of a normal number has a leading bit that is not written. -/
theorem toNat_implicit (fraction : BitVec 52) :
    (1#1 ++ fraction).toNat = 2 ^ 52 + fraction.toNat := by
  rw [BitVec.toNat_append, ← Nat.shiftLeft_add_eq_or_of_lt fraction.isLt]
  rfl

/-- What unpacking gives when it gives a finite number. -/
theorem unpack_isFinitePair {bits : BitVec 64}
    (unpacked : UnpackedFloat.unpack Format.binary64 bits =
      .finite sign significand exponent positive) :
    IsFinitePair significand exponent := by
  have fraction : (@unpackMantissa Format.binary64 bits).toNat < 2 ^ 52 := BitVec.isLt _
  unfold UnpackedFloat.unpack at unpacked
  dsimp only at unpacked
  split at unpacked
  · split at unpacked <;> cases unpacked
  · rename_i notOnes
    have below := toNat_ne_ones notOnes
    split at unpacked
    · rename_i zero
      split at unpacked
      · cases unpacked
      · cases unpacked
        rw [zero]
        exact ⟨by omega, by decide, by decide, .inr (by decide)⟩
    · rename_i notZero
      have nonzero : (@unpackExponent Format.binary64 bits).toNat ≠ 0 :=
        fun same => notZero (BitVec.eq_of_toNat_eq same)
      cases unpacked
      rw [toNat_implicit, bias_eq]
      exact ⟨by omega, by omega, by omega, .inl (by omega)⟩

theorem unpack_finite {f : Float.Model}
    (unpacked : f.unpack = .finite sign significand exponent positive) :
    IsFinitePair significand exponent :=
  unpack_isFinitePair unpacked

theorem pack_subnormal (positive : 0 < significand) (high : significand < 2 ^ 52) :
    UnpackedFloat.pack Format.binary64 (.finite sign significand (-1074) positive) =
      packComponents Format.binary64 sign 0#11 (BitVec.ofNat 52 significand) := by
  have notLeading : ¬ significand.log2 + 1 = Format.binary64.mantissaBits := by
    intro same
    have low := Nat.log2_self_le (show significand ≠ 0 by omega)
    have leading : significand.log2 = 52 := by
      have bits : Format.binary64.mantissaBits = 53 := by decide
      omega
    rw [leading] at low
    omega
  unfold UnpackedFloat.pack
  dsimp only
  rw [if_neg (by decide), if_neg notLeading]

/-- Unpacking loses nothing. -/
theorem pack_unpack (f : Float.Model) : Float.Model.pack f.unpack = f := by
  obtain ⟨⟨bits⟩, valid⟩ := f
  have parts := packComponents_unpack bits
  have fraction : (@unpackMantissa Format.binary64 bits).toNat < 2 ^ 52 := BitVec.isLt _
  suffices same : UnpackedFloat.pack Format.binary64 (UnpackedFloat.unpack Format.binary64 bits) =
      bits by
    change Float.Model.mk (UInt64.ofBitVec _) _ = _
    congr
  unfold UnpackedFloat.unpack
  dsimp only
  split
  · rename_i ones
    split
    · rename_i zero
      rw [ones, zero] at parts
      exact parts
    · rename_i nonzero
      exact (valid.eq_packedNaN ones nonzero).symm
  · rename_i notOnes
    have below := toNat_ne_ones notOnes
    split
    · rename_i zero
      rw [zero] at parts
      split
      · rename_i fractionZero
        rw [fractionZero] at parts
        exact parts
      · simp only [zero]
        refine (pack_subnormal _ fraction).trans ?_
        rw [BitVec.ofNat_toNat, BitVec.setWidth_eq]
        exact parts
    · rename_i notZero
      have nonzero : (@unpackExponent Format.binary64 bits).toNat ≠ 0 :=
        fun same => notZero (BitVec.eq_of_toNat_eq same)
      have significand := toNat_implicit (@unpackMantissa Format.binary64 bits)
      have biased : (((@unpackExponent Format.binary64 bits).toNat : Int) -
          (Format.binary64.exponentBias + Format.binary64.mantissaBitsWithoutImplicit)) + 1075 =
            (@unpackExponent Format.binary64 bits).toNat := by
        rw [bias_eq]
        omega
      have width : Format.binary64.mantissaBitsWithoutImplicit = 52 := rfl
      refine (pack_normal _ (by omega) (by omega) (by omega) (by omega)).trans ?_
      rw [biased, significand, Nat.add_sub_cancel_left, Int.toNat_natCast, BitVec.ofNat_toNat,
        BitVec.ofNat_toNat, BitVec.setWidth_eq, BitVec.setWidth_eq]
      exact parts

end Unpacking
section Neutral

variable {x y z : Float} {sign : Sign} {significand : Nat} {exponent : Int}
  {positive : 0 < significand}

theorem ofModel_unpack (x : Float) : Float.ofModel (Float.Model.pack x.toModel.unpack) = x :=
  congrArg Float.ofModel (pack_unpack x.toModel)

/-- The exponent of a finite double is the one that its format wants, however it is scaled. -/
theorem IsFinitePair.target (pair : IsFinitePair significand exponent) (positive : 0 < significand)
    (k : Nat) :
    Format.binary64.targetExponent (totalExponent (significand * 2 ^ k) (exponent - k)) =
      exponent := by
  have bits : significand.log2 < 53 := (Nat.log2_lt (by omega)).mpr pair.high
  simp only [Format.targetExponent, totalExponent, log2_mul_two_pow positive, Format.mantissaBits,
    Format.minExponent]
  rcases pair.leading with normal | least
  · have leading := (Nat.le_log2 (by omega)).mpr normal
    have := pair.least
    push_cast
    omega
  · push_cast
    omega

theorem IsFinitePair.shift (pair : IsFinitePair significand exponent) (positive : 0 < significand)
    (k : Nat) :
    shiftToTargetExponent Format.binary64 (significand * 2 ^ k) (exponent - k) .exact =
      (⟨significand, false, false⟩, exponent) := by
  have amount : (exponent - (exponent - k)).toNat = k := by omega
  unfold shiftToTargetExponent shiftToExponent
  rw [pair.target positive k]
  dsimp only
  rw [amount, Int.sub_add_cancel]
  simp only [ExtendedMantissa.ofMantissaAndAccuracy, shiftRight_exact]

/-- A finite double that was scaled up is rounded to itself. -/
theorem IsFinitePair.round (pair : IsFinitePair significand exponent) (positive : 0 < significand)
    (k : Nat) :
    roundWithAccuracy Format.binary64 sign (significand * 2 ^ k) (exponent - k) .exact =
      .finite sign significand exponent positive := by
  have again := pair.shift positive 0
  rw [Nat.pow_zero, Nat.mul_one, Int.natCast_zero, Int.sub_zero] at again
  unfold roundWithAccuracy
  rw [pair.shift positive k]
  simp only [ExtendedMantissa.roundedMantissa, ExtendedMantissa.accuracy,
    Accuracy.roundToNearestEven, again, dif_neg (Nat.ne_of_gt positive)]

theorem unpack_one : (1 : Float).toModel.unpack = .finite .positive (2 ^ 52) (-52) (by decide) := by
  have packed := ofNat_eq_pack (n := 1) (by decide)
  change (Float.ofNat 1).toModel.unpack = _
  rw [packed]
  exact unpack_pack_count (n := 1) (by decide)

theorem unpack_zero : (0 : Float).toModel.unpack = .zero .positive := by
  have packed := ofNat_eq_pack (n := 0) (by decide)
  change (Float.ofNat 0).toModel.unpack = _
  rw [packed]
  exact unpack_pack_count (n := 0) (by decide)

theorem one_mul (x : Float) : 1 * x = x := by
  have product : 1 * x = .ofModel (Float.Model.pack
      (UnpackedFloat.mul Format.binary64 (1 : Float).toModel.unpack x.toModel.unpack)) := rfl
  rw [product, unpack_one]
  conv => rhs; rw [← ofModel_unpack x]
  congr 2
  cases unpacked : x.toModel.unpack with
  | notANumber => rfl
  | infinity sign => cases sign <;> rfl
  | zero sign => cases sign <;> rfl
  | finite sign significand exponent positive =>
      have pair := unpack_finite unpacked
      have rounded := @IsFinitePair.round sign _ _ pair positive 52
      cases sign <;>
      · change roundWithAccuracy _ _ (2 ^ 52 * significand) (-52 + exponent) _ = _
        rw [Nat.mul_comm, Int.add_comm]
        exact rounded

end Neutral

section Zeros

variable {x y z : Float}

theorem isZero_iff : (x == 0) = true ↔ ∃ sign, x.toModel.unpack = .zero sign := by
  rw [beq_iff_compare, unpack_zero]
  cases x.toModel.unpack with
  | zero sign => simp [UnpackedFloat.compare]
  | notANumber => simp [UnpackedFloat.compare]
  | infinity sign => cases sign <;> simp [UnpackedFloat.compare]
  | finite sign => cases sign <;> simp [UnpackedFloat.compare]

/-- The same number, or zeros that may differ in their signs. -/
def SameUpToZeroSign (x y : Float) : Prop := x = y ∨ (x == 0) = true ∧ (y == 0) = true

theorem isZero_add (zeroX : (x == 0) = true) (zeroY : (y == 0) = true) : (x + y == 0) = true := by
  obtain ⟨signX, unpackedX⟩ := isZero_iff.mp zeroX
  obtain ⟨signY, unpackedY⟩ := isZero_iff.mp zeroY
  have sum : x + y = .ofModel (Float.Model.pack
      (UnpackedFloat.add Format.binary64 x.toModel.unpack y.toModel.unpack)) := rfl
  rw [sum, unpackedX, unpackedY]
  cases signX <;> cases signY <;> decide +kernel

/-- A zero on the left leaves what is not zero as it is. -/
theorem zero_add_of_nonzero (zero : (x == 0) = true) (nonzero : (y == 0) = false) : x + y = y := by
  obtain ⟨sign, unpacked⟩ := isZero_iff.mp zero
  have sum : x + y = .ofModel (Float.Model.pack
      (UnpackedFloat.add Format.binary64 x.toModel.unpack y.toModel.unpack)) := rfl
  rw [sum, unpacked]
  conv => rhs; rw [← ofModel_unpack y]
  congr 2
  cases other : y.toModel.unpack with
  | zero signY =>
      rw [isZero_iff.mpr ⟨signY, other⟩] at nonzero
      cases nonzero
  | notANumber => rfl
  | infinity signY => rfl
  | finite signY => rfl

theorem SameUpToZeroSign.zero_add (x : Float) : SameUpToZeroSign (0 + x) x := by
  cases nonzero : x == 0 with
  | false => exact .inl (zero_add_of_nonzero rfl nonzero)
  | true => exact .inr ⟨isZero_add rfl nonzero, nonzero⟩

theorem SameUpToZeroSign.add_right (same : SameUpToZeroSign x y) (z : Float) :
    SameUpToZeroSign (x + z) (y + z) := by
  rcases same with rfl | ⟨zeroX, zeroY⟩
  · exact .inl rfl
  · cases nonzero : z == 0 with
    | false =>
        rw [zero_add_of_nonzero zeroX nonzero, zero_add_of_nonzero zeroY nonzero]
        exact .inl rfl
    | true => exact .inr ⟨isZero_add zeroX nonzero, isZero_add zeroY nonzero⟩

end Zeros

end LispScript.Number
