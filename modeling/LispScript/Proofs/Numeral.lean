import LispScript.Number.Literal
import LispScript.Number.Text
import LispScript.Proofs.Number

/-!
Whole numbers in text. A whole number below `10 ^ 15` in magnitude is a count or the opposite of one;
its text is a numeral, the digits of the count after its sign, and is read back as an equal number.
-/

namespace LispScript.Number

open Float.Model Float.Model.UnpackedFloat

/-- Whole, and below `10 ^ 15` in magnitude. -/
def IsShortWhole (x : Float) : Prop :=
  isWhole x = true ∧ (Binary.ofFloat x).truncate < wholeBound

section Bits

variable {x y : Float}

theorem eq_of_toBits (same : x.toBits.toNat = y.toBits.toNat) : x = y := by
  obtain ⟨⟨bits, valid⟩⟩ := x
  obtain ⟨⟨bits', valid'⟩⟩ := y
  obtain rfl : bits = bits' := UInt64.toNat_inj.mp same
  rfl

theorem fractionBits_eq (x : Float) : fractionBits x = x.toBits.toNat % 2 ^ 52 := by
  rw [fractionBits, UInt64.toNat_mod]
  rfl

theorem exponentBits_eq (x : Float) : exponentBits x = x.toBits.toNat / 2 ^ 52 % 2048 := by
  rw [exponentBits, UInt64.toNat_mod, UInt64.toNat_div]
  rfl

theorem isNegative_iff (x : Float) : isNegative x = true ↔ 2 ^ 63 ≤ x.toBits.toNat := by
  rw [isNegative, decide_eq_true_iff, UInt64.le_iff_toNat_le]
  rfl

theorem fractionBits_lt (x : Float) : fractionBits x < 2 ^ 52 := by
  rw [fractionBits_eq]
  exact Nat.mod_lt _ (by positivity)

/-- The three parts of a double determine it. -/
theorem eq_of_parts (sign : isNegative x = isNegative y)
    (exponent : exponentBits x = exponentBits y) (fraction : fractionBits x = fractionBits y) :
    x = y := by
  have boundX : x.toBits.toNat < 2 ^ 64 := x.toBits.toNat_lt
  have boundY : y.toBits.toNat < 2 ^ 64 := y.toBits.toNat_lt
  have sign : 2 ^ 63 ≤ x.toBits.toNat ↔ 2 ^ 63 ≤ y.toBits.toNat := by
    rw [← isNegative_iff, ← isNegative_iff, sign]
  rw [exponentBits_eq, exponentBits_eq] at exponent
  rw [fractionBits_eq, fractionBits_eq] at fraction
  exact eq_of_toBits (by omega)

theorem ofFloat_eq (x : Float) : Binary.ofFloat x =
    if exponentBits x = 0 then ⟨fractionBits x, -1074⟩
    else ⟨fractionBits x + 2 ^ 52, (exponentBits x : Int) - 1075⟩ := by
  have leading : leadingBit.toNat = 2 ^ 52 := rfl
  have sum : (x.toBits % leadingBit + leadingBit).toNat = fractionBits x + 2 ^ 52 := by
    have bound := fractionBits_lt x
    rw [fractionBits] at bound ⊢
    rw [UInt64.toNat_add, leading]
    omega
  rw [Binary.ofFloat, sum]

/-- A double is determined by its sign and its magnitude. -/
theorem eq_of_ofFloat (sign : isNegative x = isNegative y)
    (magnitude : Binary.ofFloat x = Binary.ofFloat y) : x = y := by
  have boundX := fractionBits_lt x
  have boundY := fractionBits_lt y
  rw [ofFloat_eq, ofFloat_eq] at magnitude
  by_cases subX : exponentBits x = 0 <;> by_cases subY : exponentBits y = 0
  · rw [if_pos subX, if_pos subY, Binary.mk.injEq] at magnitude
    exact eq_of_parts sign (by omega) (by omega)
  · rw [if_pos subX, if_neg subY, Binary.mk.injEq] at magnitude
    omega
  · rw [if_neg subX, if_pos subY, Binary.mk.injEq] at magnitude
    omega
  · rw [if_neg subX, if_neg subY, Binary.mk.injEq] at magnitude
    exact eq_of_parts sign (by omega) (by omega)

theorem compare_self {u : UnpackedFloat} (number : u ≠ .notANumber) : u.compare u = some .eq := by
  cases u with
  | notANumber => exact absurd rfl number
  | infinity sign => cases sign <;> rfl
  | zero sign => rfl
  | finite sign significand exponent positive => cases sign <;> simp [UnpackedFloat.compare]

/-- Whatever is finite is a number. -/
theorem beq_self_of_isFinite (finite : isFinite x = true) : (x == x) = true := by
  rw [beq_iff_compare]
  refine compare_self fun undefined => ?_
  have ones : @unpackExponent Format.binary64 x.toModel.toBits.toBitVec = -1#11 := by
    change UnpackedFloat.unpack Format.binary64 x.toModel.toBits.toBitVec = .notANumber at undefined
    unfold UnpackedFloat.unpack at undefined
    by_contra exponent
    simp only [if_neg exponent] at undefined
    split at undefined
    · split at undefined <;> cases undefined
    · cases undefined
  have bits := congrArg BitVec.toNat ones
  simp only [unpackExponent, BitVec.toNat_cast, BitVec.extractLsb_toNat] at bits
  rw [isFinite, exponentBits_eq] at finite
  have word : x.toModel.toBits.toBitVec.toNat = x.toBits.toNat := rfl
  rw [word] at bits
  simp [Nat.shiftRight_eq_div_pow] at bits finite
  omega

end Bits

section Counts

variable {x : Float} {n : Nat}

theorem ofFloat_ofNat (positive : 0 < n) (small : n < exactLimit) :
    isNegative (Float.ofNat n) = false ∧
      Binary.ofFloat (Float.ofNat n) = ⟨significandOf n, (n.log2 : Int) - 52⟩ := by
  have bounds := significandOf_bounds positive small
  have bound := log2_le_of_lt_exactLimit small
  obtain ⟨nonNegative, -, parts⟩ := parts_of_normal ((n.log2 : Int) - 52)
    (Nat.lt_of_lt_of_le (by decide) bounds.1) bounds.1 bounds.2 (by omega) (by omega)
  rw [ofNat_eq_pack small]
  simp only [unpackedCount, positive, dite_true]
  exact ⟨nonNegative, parts⟩

theorem toNat_packComponents_negative (exponent : BitVec 11) (fraction : BitVec 52) :
    (packComponents Format.binary64 .negative exponent fraction).toNat =
      2 ^ 63 + (packComponents Format.binary64 .positive exponent fraction).toNat := by
  have bound : (exponent ++ fraction).toNat < 2 ^ 63 := (exponent ++ fraction).isLt
  have parts : ∀ sign, (packComponents Format.binary64 sign exponent fraction).toNat =
      (sign.toBitVec.toNat <<< 63) + (exponent ++ fraction).toNat := by
    intro sign
    rw [Nat.shiftLeft_add_eq_or_of_lt bound]
    simp only [packComponents, BitVec.toNat_append, Nat.shiftLeft_or_distrib, Nat.or_assoc,
      ← Nat.shiftLeft_add]
  rw [parts, parts]
  simp [Sign.toBitVec]

/-- The opposite of a count differs from it in the sign bit. -/
theorem toBits_neg_ofNat (small : n < exactLimit) :
    (-(Float.ofNat n)).toBits.toNat = 2 ^ 63 + (Float.ofNat n).toBits.toNat := by
  rcases Nat.eq_zero_or_pos n with rfl | positive
  · decide +kernel
  · have bounds := significandOf_bounds positive small
    have bound := log2_le_of_lt_exactLimit small
    have some_significand : 0 < significandOf n := Nat.lt_of_lt_of_le (by decide) bounds.1
    have packed : ∀ sign, (Float.Model.pack (.finite sign (significandOf n) ((n.log2 : Int) - 52)
        some_significand)).toBits.toNat =
        (packComponents Format.binary64 sign (BitVec.ofNat 11 ((n.log2 : Int) - 52 + 1075).toNat)
          (BitVec.ofNat 52 (significandOf n - 2 ^ 52))).toNat := fun sign =>
      congrArg BitVec.toNat (pack_normal some_significand bounds.1 bounds.2
        (by omega) (by omega))
    rw [ofNat_eq_pack small]
    change (Float.Model.pack (Float.Model.pack (unpackedCount n)).unpack.neg).toBits.toNat =
      2 ^ 63 + (Float.Model.pack (unpackedCount n)).toBits.toNat
    rw [unpack_pack_count small]
    simp only [unpackedCount, positive, dite_true, UnpackedFloat.neg]
    exact (packed _).trans ((toNat_packComponents_negative _ _).trans
      (congrArg (2 ^ 63 + ·) (packed .positive).symm))

theorem ofFloat_neg_ofNat (small : n < exactLimit) :
    isNegative (-(Float.ofNat n)) = true ∧
      Binary.ofFloat (-(Float.ofNat n)) = Binary.ofFloat (Float.ofNat n) := by
  have bits := toBits_neg_ofNat small
  refine ⟨(isNegative_iff _).mpr (by omega), ?_⟩
  rw [ofFloat_eq, ofFloat_eq, exponentBits_eq, exponentBits_eq, fractionBits_eq, fractionBits_eq,
    bits]
  have same : ∀ k, (2 ^ 63 + k) / 2 ^ 52 % 2048 = k / 2 ^ 52 % 2048 ∧
      (2 ^ 63 + k) % 2 ^ 52 = k % 2 ^ 52 := by
    intro k
    omega
  rw [(same _).1, (same _).2]

/-- A short whole number has the magnitude of a count. -/
theorem IsShortWhole.ofFloat_eq (short : IsShortWhole x) :
    Binary.ofFloat x = Binary.ofFloat (Float.ofNat (Binary.ofFloat x).truncate) := by
  have small : (Binary.ofFloat x).truncate < 2 ^ 52 := Nat.lt_trans short.2 (by decide)
  have whole : (Binary.ofFloat x).isWhole = true := (Bool.and_eq_true_iff.mp short.1).2
  have fraction := fractionBits_lt x
  rw [Number.ofFloat_eq] at small whole ⊢
  by_cases subnormal : exponentBits x = 0
  · simp only [if_pos subnormal] at small whole ⊢
    have nothing : Binary.truncate ⟨fractionBits x, -1074⟩ = 0 := by
      change fractionBits x >>> 1074 = 0
      have high : fractionBits x >>> 52 = 0 := by
        rw [Nat.shiftRight_eq_div_pow, Nat.div_eq_of_lt fraction]
      rw [show 1074 = 52 + 1022 by rfl, Nat.shiftRight_add, high, Nat.zero_shiftRight]
    have exact := Binary.truncate_of_isWhole whole (by simp)
    rw [nothing, Nat.zero_mul] at exact
    have zero : fractionBits x = 0 := exact.symm
    rw [nothing, zero]
    decide +kernel
  · simp only [if_neg subnormal] at small whole ⊢
    set significand := fractionBits x + 2 ^ 52
    have leading : significand.log2 = 52 := by
      rw [Nat.log2_eq_iff (by omega)]
      omega
    cases exponent : (exponentBits x : Int) - 1075 with
    | ofNat up =>
        rw [exponent] at small
        have large : 2 ^ 52 ≤ significand <<< up := by
          rw [Nat.shiftLeft_eq]
          calc 2 ^ 52 ≤ significand := Nat.le_add_left _ _
            _ ≤ significand * 2 ^ up := Nat.le_mul_of_pos_right _ (by positivity)
        exact absurd small (Nat.not_lt.mpr large)
    | negSucc down =>
        rw [exponent] at small whole
        have exact := Binary.truncate_of_isWhole whole (Int.negSucc_lt_zero down)
        generalize Binary.truncate ⟨significand, Int.negSucc down⟩ = n at exact small
        change n * 2 ^ (down + 1) = significand at exact
        have positive : 0 < n := by
          by_contra zero
          rw [Nat.eq_zero_of_not_pos zero, Nat.zero_mul] at exact
          omega
        have logarithm := log2_mul_two_pow positive (down + 1)
        rw [exact, leading] at logarithm
        rw [(ofFloat_ofNat positive (Nat.lt_trans small (by decide))).2, significandOf, ← exact]
        congr 1
        · congr 2
          omega
        · omega

/-- A short whole number is a count or the opposite of one. -/
theorem IsShortWhole.eq_count (short : IsShortWhole x) :
    x = if isNegative x then -(Float.ofNat (Binary.ofFloat x).truncate)
      else Float.ofNat (Binary.ofFloat x).truncate := by
  have small : (Binary.ofFloat x).truncate < exactLimit := Nat.lt_trans short.2 (by decide)
  split
  · rename_i negative
    obtain ⟨sign, magnitude⟩ := ofFloat_neg_ofNat small
    exact eq_of_ofFloat (negative.trans sign.symm) (short.ofFloat_eq.trans magnitude.symm)
  · rename_i nonNegative
    refine eq_of_ofFloat ?_ short.ofFloat_eq
    rw [Bool.eq_false_iff.mpr nonNegative]
    rcases Nat.eq_zero_or_pos (Binary.ofFloat x).truncate with zero | positive
    · rw [zero]
      decide +kernel
    · exact (ofFloat_ofNat positive small).1.symm

end Counts

section Numerals

variable {x : Float} {n : Nat}

/-- The digits of a count are read as the count. -/
theorem whole?_digits (small : n < wholeBound) :
    whole? (Nat.toDigits 10 n) = some (Float.ofNat n) := by
  have digits : ∀ c ∈ Nat.toDigits 10 n, c.isDigit = true := fun c member =>
    Nat.isDigit_of_mem_toDigits (by decide) (by decide) member
  have noPoint : (Nat.toDigits 10 n).getLast? ≠ some '.' := fun last =>
    absurd (digits '.' (List.mem_of_getLast? last)) (by decide)
  have value : digitsValue (Nat.toDigits 10 n) = n :=
    Nat.ofDigitChars_toDigits (by decide) (by decide)
  have length : (Nat.toDigits 10 n).length ≤ 15 :=
    (Nat.length_toDigits_le_iff (by decide) (by decide)).mpr small
  have nearest : nearestDouble n 0 = Float.ofNat n := by
    rw [nearestDouble]
    by_cases zero : n = 0
    · subst zero
      rfl
    · rw [if_neg (by simp [zero]), if_neg (by omega), if_pos (by decide)]
      rfl
  rw [whole?, if_neg noPoint, value, nearest]
  simp only [List.isEmpty_eq_false_iff.mpr Nat.toDigits_ne_nil, List.all_eq_true.mpr digits,
    Bool.not_true, Bool.or_self, Bool.false_eq_true, if_false]

theorem truncate_eq_zero {b : Binary} (zero : b.significand = 0) : b.truncate = 0 := by
  rw [Binary.truncate, zero]
  split <;> simp

/-- The text of a short whole number: digits after a possible sign. -/
theorem IsShortWhole.text_eq (short : IsShortWhole x) :
    (text x).toList = (if isNegative x && (Binary.ofFloat x).significand ≠ 0 then ['-'] else []) ++
      Nat.toDigits 10 (Binary.ofFloat x).truncate := by
  obtain ⟨finite, whole⟩ := Bool.and_eq_true_iff.mp short.1
  rw [text, beq_self_of_isFinite finite, finite]
  simp only [whole, short.2, decide_true, Bool.and_self, Bool.not_true, Bool.false_eq_true, if_false,
    if_true]
  by_cases zero : (Binary.ofFloat x).significand = 0
  · simp [zero, truncate_eq_zero zero]
  · cases isNegative x <;> simp [zero]

theorem IsShortWhole.text_shape (short : IsShortWhole x) :
    (text x).toList ≠ [] ∧ ∀ c ∈ (text x).toList, c = '-' ∨ c.isDigit = true := by
  rw [short.text_eq]
  refine ⟨by simp [Nat.toDigits_ne_nil], fun c member => ?_⟩
  rcases List.mem_append.mp member with sign | digit
  · split at sign
    · exact .inl (List.mem_singleton.mp sign)
    · cases sign
  · exact .inr (Nat.isDigit_of_mem_toDigits (by decide) (by decide) digit)

theorem splitSign_digits (n : Nat) :
    splitSign (Nat.toDigits 10 n) = (false, Nat.toDigits 10 n) := by
  have digits : ∀ c ∈ Nat.toDigits 10 n, c.isDigit = true := fun c member =>
    Nat.isDigit_of_mem_toDigits (by decide) (by decide) member
  rw [splitSign.eq_def]
  split
  · rename_i shape
    exact absurd (digits '+' (shape ▸ List.mem_cons_self)) (by decide)
  · rename_i shape
    exact absurd (digits '-' (shape ▸ List.mem_cons_self)) (by decide)
  · rfl

/-- The text of a short whole number is read as an equal one. -/
theorem IsShortWhole.ofToken?_text (short : IsShortWhole x) :
    ∃ y, ofToken? (text x).toList = some y ∧ (x == y) = true := by
  have itself := beq_self_of_isFinite (Bool.and_eq_true_iff.mp short.1).1
  have count := short.eq_count
  have whole := whole?_digits short.2
  rw [short.text_eq]
  by_cases negative : isNegative x = true
  · rw [if_pos negative] at count
    by_cases zero : (Binary.ofFloat x).significand = 0
    · -- A zero is written without its sign, and the two zeros are equal.
      rw [truncate_eq_zero zero] at count whole ⊢
      refine ⟨Float.ofNat 0, ?_, ?_⟩
      · simp only [negative, zero, ne_eq, not_true_eq_false, decide_false, Bool.and_false,
          Bool.false_eq_true, if_false, List.nil_append, ofToken?, splitSign_digits, whole,
          Option.orElse_some, Option.map_some]
      · rw [count]
        decide +kernel
    · refine ⟨x, ?_, itself⟩
      simp only [negative, ne_eq, zero, not_false_eq_true, decide_true, Bool.and_self, if_true,
        List.singleton_append, ofToken?, splitSign, whole, Option.orElse_some, Option.map_some]
      exact congrArg some count.symm
  · rw [if_neg negative] at count
    refine ⟨x, ?_, itself⟩
    simp only [negative, Bool.false_and, Bool.false_eq_true, if_false, List.nil_append, ofToken?,
      splitSign_digits, whole, Option.orElse_some, Option.map_some]
    exact congrArg some count.symm

end Numerals

end LispScript.Number
