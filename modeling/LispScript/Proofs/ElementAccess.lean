import LispScript.Machine.Property
import LispScript.Proofs.Numeral
import LispScript.Proofs.SignedZero

/-!
Element access. A number that is a natural number selects the element at that place of a vector, a
string or a list, as it does where a script indexes an object. The built-in functions take any other
number for an index too: its whole part, or zero where it is below zero or not a number.
-/

namespace LispScript

namespace Number

open Float.Model Float.Model.UnpackedFloat

section Signs

variable {x : Float} {sign : Sign}

theorem isNegative_iff_unpackSign (x : Float) :
    isNegative x = true ↔ @unpackSign Format.binary64 x.toModel.toBits.toBitVec = 1#1 := by
  have bound : x.toModel.toBits.toBitVec.toNat < 2 ^ 64 := BitVec.isLt _
  rw [isNegative_iff, ← BitVec.toNat_inj]
  change 2 ^ 63 ≤ x.toModel.toBits.toBitVec.toNat ↔ _
  simp only [unpackSign, BitVec.toNat_cast, BitVec.extractLsb_toNat, Nat.shiftRight_eq_div_pow]
  change _ ↔ x.toModel.toBits.toBitVec.toNat / 2 ^ 63 % 2 ^ 1 = 1
  omega

/-- The sign of a number that has a magnitude. -/
def HasSign (x : Float) (sign : Sign) : Prop :=
  x.toModel.unpack = .infinity sign ∨
    ∃ significand exponent positive, x.toModel.unpack = .finite sign significand exponent positive

theorem HasSign.isNegative_iff (hasSign : HasSign x sign) :
    isNegative x = true ↔ sign = .negative := by
  have fromBits : sign = Sign.ofBitVec (@unpackSign Format.binary64 x.toModel.toBits.toBitVec) := by
    rcases hasSign with unpacked | ⟨significand, exponent, positive, unpacked⟩ <;>
    · change UnpackedFloat.unpack Format.binary64 x.toModel.toBits.toBitVec = _ at unpacked
      unfold UnpackedFloat.unpack at unpacked
      dsimp only at unpacked
      split at unpacked
      · split at unpacked <;> cases unpacked <;> rfl
      · split at unpacked
        · split at unpacked <;> cases unpacked <;> rfl
        · cases unpacked <;> rfl
  rw [isNegative_iff_unpackSign, fromBits]
  generalize @unpackSign Format.binary64 x.toModel.toBits.toBitVec = bit
  change bit = 1#1 ↔ Sign.ofBitVec (bit : BitVec 1) = .negative
  obtain rfl | rfl : bit = 0#1 ∨ bit = 1#1 := by bv_omega
  · simp [Sign.ofBitVec]
  · simp [Sign.ofBitVec]

theorem isNegative_of_lt_zero (below : x < 0) : isNegative x = true := by
  rw [lt_iff_compare, unpack_zero] at below
  cases unpacked : x.toModel.unpack with
  | notANumber | zero sign => simp [unpacked, UnpackedFloat.compare] at below
  | infinity sign =>
      have negative : sign = .negative := by
        cases sign with
        | positive => simp [unpacked, UnpackedFloat.compare] at below
        | negative => rfl
      exact HasSign.isNegative_iff (.inl unpacked) |>.mpr negative
  | finite sign significand exponent positive =>
      have negative : sign = .negative := by
        cases sign with
        | positive => simp [unpacked, UnpackedFloat.compare] at below
        | negative => rfl
      exact HasSign.isNegative_iff (.inr ⟨_, _, _, unpacked⟩) |>.mpr negative

/-- Among the numbers from zero up only a zero has a sign. -/
theorem truncate_eq_zero_of_signed (nonneg : 0 ≤ x) (signed : isNegative x = true) :
    (Binary.ofFloat x).truncate = 0 ∧ isFinite x = true := by
  rw [le_iff_compare, unpack_zero] at nonneg
  have packed := ofModel_unpack x
  cases unpacked : x.toModel.unpack with
  | notANumber => simp [unpacked, UnpackedFloat.compare] at nonneg
  | zero sign =>
      rw [unpacked] at packed
      rw [← packed]
      cases sign <;> decide +kernel
  | infinity sign =>
      cases (HasSign.isNegative_iff (.inl unpacked)).mp signed
      simp [unpacked, UnpackedFloat.compare] at nonneg
  | finite sign significand exponent positive =>
      cases (HasSign.isNegative_iff (.inr ⟨_, _, _, unpacked⟩)).mp signed
      simp [unpacked, UnpackedFloat.compare] at nonneg

end Signs

section Indices

variable {x : Float} {n : Nat}

/-- That a number is a natural number. -/
structure IsCount (x : Float) (n : Nat) : Prop where
  nonneg : 0 ≤ x
  whole : isWhole x = true
  magnitude : (Binary.ofFloat x).truncate = n

/-- The index that the built-in functions take a number for. -/
inductive TakenFor (x : Float) : Nat → Prop where
  | negative (below : x < 0) : TakenFor x 0
  | undefined (noNumber : (x == x) = false) : TakenFor x 0
  | wholePart (nonneg : 0 ≤ x) (finite : isFinite x = true) :
      TakenFor x (Binary.ofFloat x).truncate
  | infinite (nonneg : 0 ≤ x) (infinite : isFinite x = false) : TakenFor x wordLimit

theorem IsCount.takenFor (count : IsCount x n) : TakenFor x n := by
  obtain ⟨nonneg, whole, rfl⟩ := count
  exact .wholePart nonneg (Bool.and_eq_true_iff.mp whole).1

theorem isCount_ofNat (small : n < exactLimit) : IsCount (Float.ofNat n) n where
  nonneg := zero_le_ofNat n
  whole := isWhole_ofNat small
  magnitude := by
    have count := toCount_ofNat small
    have below : n < wordLimit := Nat.lt_trans small (by decide)
    have finite : isFinite (Float.ofNat n) = true :=
      (Bool.and_eq_true_iff.mp (isWhole_ofNat small)).1
    by_cases signed : isNegative (Float.ofNat n) = true
    · rw [toCount, if_pos signed] at count
      exact (truncate_eq_zero_of_signed (zero_le_ofNat n) signed).1.trans count
    · rw [toCount, if_neg signed, if_pos finite] at count
      omega

theorem number_of_zero_le (nonneg : 0 ≤ x) : (x == x) = true := by
  rw [beq_iff_compare]
  refine compare_self fun noNumber => ?_
  simp [le_iff_compare, noNumber, unpack_zero, UnpackedFloat.compare] at nonneg

/-- A number is below zero, from zero up, or not a number. -/
theorem sign_cases (x : Float) : x < 0 ∨ 0 ≤ x ∨ (x == x) = false := by
  rw [lt_iff_compare, le_iff_compare, unpack_zero, Bool.eq_false_iff, ne_eq, beq_iff_compare]
  cases x.toModel.unpack with
  | notANumber | zero sign => simp [UnpackedFloat.compare]
  | infinity sign | finite sign => cases sign <;> simp [UnpackedFloat.compare]

theorem exists_takenFor (x : Float) : ∃ n, TakenFor x n := by
  rcases sign_cases x with below | nonneg | noNumber
  · exact ⟨_, .negative below⟩
  · cases finite : isFinite x with
    | true => exact ⟨_, .wholePart nonneg finite⟩
    | false => exact ⟨_, .infinite nonneg finite⟩
  · exact ⟨_, .undefined noNumber⟩

/-- The count that a number is read as is the index that it is taken for, as far as a word goes. -/
theorem TakenFor.toCount_eq (taken : TakenFor x n) : toCount x = min n wordLimit := by
  cases taken with
  | negative below => rw [toCount, if_pos (isNegative_of_lt_zero below), Nat.zero_min]
  | undefined noNumber =>
      have infinite : isFinite x = false := by
        rw [Bool.eq_false_iff]
        intro finite
        rw [beq_self_of_isFinite finite] at noNumber
        cases noNumber
      simp [toCount, infinite, noNumber]
  | wholePart nonneg finite =>
      by_cases signed : isNegative x = true
      · rw [toCount, if_pos signed, (truncate_eq_zero_of_signed nonneg signed).1, Nat.zero_min]
      · rw [toCount, if_neg signed, if_pos finite]
  | infinite nonneg infinite =>
      by_cases signed : isNegative x = true
      · rw [(truncate_eq_zero_of_signed nonneg signed).2] at infinite
        cases infinite
      · simp [toCount, signed, infinite, number_of_zero_le nonneg]

end Indices

end Number

namespace Heap

/-- The elements of a vector or a string. -/
def sequence? (heap : Heap) : Value → Option (List Value)
  | .vector address => some (heap.vector address).toList
  | .string _ text => some (text.toList.map .character)
  | _ => none

/-- What is left of a list after a number of its cells. -/
inductive NthTail (heap : Heap) : Nat → Value → Value → Prop where
  | here (list : Value) : NthTail heap 0 list list
  | next {n : Nat} {address : Address} {tail : Value}
      (rest : NthTail heap n (heap.cell address).cdr tail) : NthTail heap (n + 1) (.cons address) tail

variable {heap : Heap} {n m : Nat} {list tail value : Value}

/-- The element of a list at a place, `NIL` past the end of a proper list. -/
inductive IsNth (heap : Heap) (list : Value) (n : Nat) : Value → Prop where
  | element {address : Address} (reached : heap.NthTail n list (.cons address)) :
      IsNth heap list n (heap.cell address).car
  | past {m : Nat} (within : m ≤ n) (ended : heap.NthTail m list .nil) : IsNth heap list n .nil

theorem IsNth.cons_iff {address : Address} :
    heap.IsNth (.cons address) (n + 1) value ↔ heap.IsNth (heap.cell address).cdr n value := by
  constructor
  · rintro (⟨⟨⟩⟩ | ⟨within, ⟨⟩⟩)
    · exact .element ‹_›
    · exact .past (Nat.le_of_succ_le_succ within) ‹_›
  · rintro (⟨reached⟩ | ⟨within, ended⟩)
    · exact .element (.next reached)
    · exact .past (Nat.succ_le_succ within) (.next ended)

theorem IsNth.nil_iff : heap.IsNth .nil n value ↔ value = .nil := by
  constructor
  · rintro (⟨⟨⟩⟩ | ⟨-, ⟨⟩⟩)
    rfl
  · rintro rfl
    exact .past (Nat.zero_le n) (.here .nil)

theorem IsNth.not_of_atom (notCons : list.isCons = false) (notNil : list ≠ .nil) :
    ¬ heap.IsNth list n value := by
  rintro (⟨⟨⟩⟩ | ⟨-, ⟨⟩⟩) <;> first | exact notNil rfl | cases notCons

/-- A list that ends goes on with a cell everywhere before its end. -/
theorem NthTail.before_end {tail' : Value} (ended : heap.NthTail m list tail)
    (atEnd : tail.isCons = false) (reached : heap.NthTail n list tail') :
    n < m ∧ tail'.isCons = true ∨ n = m ∧ tail' = tail := by
  induction ended generalizing n with
  | here list =>
      cases reached with
      | here => exact .inr ⟨rfl, rfl⟩
      | next rest => cases atEnd
  | next rest ih =>
      cases reached with
      | here => exact .inl ⟨Nat.succ_pos _, rfl⟩
      | next reached =>
          rcases ih atEnd reached with ⟨before, isCons⟩ | ⟨rfl, same⟩
          · exact .inl ⟨Nat.succ_lt_succ before, isCons⟩
          · exact .inr ⟨rfl, same⟩

/-- Past the end of a list that ends every place is the same. -/
theorem IsNth.beyond {limit : Nat} (ended : heap.NthTail m list tail) (atEnd : tail.isCons = false)
    (short : m ≤ limit) (far : limit ≤ n) : heap.IsNth list n value ↔ heap.IsNth list limit value := by
  have noElement {k : Nat} {address : Address} (past : m ≤ k) :
      ¬ heap.NthTail k list (.cons address) := by
    intro reached
    rcases ended.before_end atEnd reached with ⟨before, -⟩ | ⟨-, rfl⟩
    · omega
    · cases atEnd
  constructor
  · rintro (⟨reached⟩ | ⟨-, ended'⟩)
    · exact absurd reached (noElement (Nat.le_trans short far))
    · rcases ended.before_end atEnd ended' with ⟨-, isCons⟩ | ⟨rfl, -⟩
      · cases isCons
      · exact .past short ended'
  · rintro (⟨reached⟩ | ⟨within, ended'⟩)
    · exact absurd reached (noElement short)
    · exact .past (Nat.le_trans within far) ended'

/-- The list has an end, no further than any word can count. -/
def EndsWithin (heap : Heap) (limit : Nat) (list : Value) : Prop :=
  ∃ m tail, m ≤ limit ∧ heap.NthTail m list tail ∧ tail.isCons = false

theorem EndsWithin.isNth_min {limit : Nat} (near : n ≤ limit ∨ heap.EndsWithin limit list) :
    heap.IsNth list (min n limit) value ↔ heap.IsNth list n value := by
  by_cases within : n ≤ limit
  · rw [Nat.min_eq_left within]
  · obtain ⟨m, tail, short, ended, atEnd⟩ := near.resolve_left within
    have far : limit ≤ n := Nat.le_of_not_le within
    rw [Nat.min_eq_right far]
    exact (IsNth.beyond ended atEnd short far).symm

end Heap

namespace Machine

open Number

section Elements

variable {image : Image} {x : Float} {n : Nat} {sequence list : Value} {items : List Value}

/-- What is found at a place of a vector or a string, or the complaint about the index. -/
def atIndex (image : Image) (sequence : Value) (x : Float) :
    Option Value → EStateM.Result Interrupt Image Value
  | some item => .ok item image
  | none => .error (.failed (.signal ("index " ++ messageText x ++ " out of bounds for " ++
      image.print sequence))) image

theorem aref_eq (elements : image.heap.sequence? sequence = some items) (x : Float) :
    runBuiltin .aref [sequence, .number x] image = atIndex image sequence x items[toCount x]? := by
  change elementOf sequence (.number x) image = _
  cases sequence with
  | vector address =>
      cases elements
      rw [Array.getElem?_toList]
      simp only [elementOf, numberOf, pure_bind]
      change EStateM.bind _ _ image = _
      rw [EStateM.bind]
      simp only [Run.heap]
      cases (image.heap.vector address)[toCount x]? <;> rfl
  | string address text =>
      cases elements
      rw [List.getElem?_map]
      simp only [elementOf, numberOf, pure_bind]
      cases text.toList[toCount x]? <;> rfl
  | _ => cases elements

theorem getElement_eq (elements : image.heap.sequence? sequence = some items) (x : Float) :
    getElement sequence (.number x) image =
      .ok (if 0 ≤ x ∧ isWhole x = true then items[toCount x]?.getD .undefined else .undefined) image := by
  simp only [getElement, Bool.and_eq_true, decide_eq_true_eq]
  split
  · cases sequence with
    | vector address =>
        cases elements
        rw [Array.getElem?_toList]
        rfl
    | string address text =>
        cases elements
        rw [List.getElem?_map]
        rfl
    | _ => cases elements
  · rfl

/-- An element of a list, or a complaint about what is no list. -/
theorem nthOf_cases (n : Nat) (list : Value) (image : Image) :
    (∃ value, nthOf n list image = .ok value image ∧
      ∀ value', image.heap.IsNth list n value' ↔ value' = value) ∨
    (∃ text, nthOf n list image = .error (.failed (.typeError text "LIST")) image) ∧
      ∀ value, ¬ image.heap.IsNth list n value := by
  induction n generalizing list with
  | zero =>
      cases list with
      | nil => exact .inl ⟨.nil, rfl, fun _ => Heap.IsNth.nil_iff⟩
      | cons address =>
          refine .inl ⟨(image.heap.cell address).car, rfl, fun value' => ⟨?_, ?_⟩⟩
          · rintro (⟨⟨⟩⟩ | ⟨within, ended⟩)
            · rfl
            · cases Nat.le_zero.mp within
              cases ended
          · rintro rfl
            exact .element (.here _)
      | _ => exact .inr ⟨⟨_, rfl⟩, fun _ => Heap.IsNth.not_of_atom rfl (by simp)⟩
  | succ n ih =>
      cases list with
      | nil => exact .inl ⟨.nil, rfl, fun _ => Heap.IsNth.nil_iff⟩
      | cons address =>
          have step : nthOf (n + 1) (.cons address) image =
              nthOf n (image.heap.cell address).cdr image := rfl
          simp only [step, Heap.IsNth.cons_iff]
          exact ih (image.heap.cell address).cdr
      | _ => exact .inr ⟨⟨_, rfl⟩, fun _ => Heap.IsNth.not_of_atom rfl (by simp)⟩

theorem nth_eq (x : Float) (list : Value) (image : Image) :
    runBuiltin .nth [.number x, list] image = nthOf (toCount x) list image :=
  rfl

/-- A sequence has nothing past what a word can count. -/
theorem getElem?_min (short : items.length ≤ wordLimit) (n : Nat) :
    items[min n wordLimit]? = items[n]? := by
  by_cases within : n ≤ wordLimit
  · rw [Nat.min_eq_left within]
  · rw [Nat.min_eq_right (Nat.le_of_not_le within), List.getElem?_eq_none short,
      List.getElem?_eq_none (by omega)]

theorem aref_taken (taken : TakenFor x n) (elements : image.heap.sequence? sequence = some items)
    (short : items.length ≤ wordLimit) :
    runBuiltin .aref [sequence, .number x] image = atIndex image sequence x items[n]? := by
  rw [aref_eq elements, taken.toCount_eq, getElem?_min short]

theorem getElement_count (count : IsCount x n) (elements : image.heap.sequence? sequence = some items)
    (short : items.length ≤ wordLimit) :
    getElement sequence (.number x) image = .ok (items[n]?.getD .undefined) image := by
  rw [getElement_eq elements, if_pos ⟨count.nonneg, count.whole⟩, count.takenFor.toCount_eq,
    getElem?_min short]

theorem getElement_other (other : ∀ m, ¬ IsCount x m)
    (elements : image.heap.sequence? sequence = some items) :
    getElement sequence (.number x) image = .ok .undefined image := by
  rw [getElement_eq elements, if_neg fun ⟨nonneg, whole⟩ => other _ ⟨nonneg, whole, rfl⟩]

theorem nth_taken (taken : TakenFor x n)
    (near : n ≤ wordLimit ∨ image.heap.EndsWithin wordLimit list) :
    (∃ value, runBuiltin .nth [.number x, list] image = .ok value image ∧
      ∀ value', image.heap.IsNth list n value' ↔ value' = value) ∨
    (∃ text, runBuiltin .nth [.number x, list] image =
      .error (.failed (.typeError text "LIST")) image) ∧ ∀ value, ¬ image.heap.IsNth list n value := by
  simp only [nth_eq, taken.toCount_eq, ← Heap.EndsWithin.isNth_min near]
  exact nthOf_cases _ _ _

/-- Element access. Every number is taken for an index, a natural number for itself, one that is below
zero or undefined for zero and any other for its whole part. `AREF` gives the element at the index that
its number is taken for, and a failure that names the number where there is none; `NTH` gives what a
list has at that place, and a type error where it is no list up to there. Where a script indexes the
same object, a natural number selects the same element, and any other selects nothing. -/
theorem element_access (image : Image) (x : Float) :
    (∃ n, TakenFor x n) ∧ (∀ n, IsCount x n → TakenFor x n) ∧ ∀ n, TakenFor x n →
      (∀ sequence items, image.heap.sequence? sequence = some items → items.length ≤ wordLimit →
        runBuiltin .aref [sequence, .number x] image = atIndex image sequence x items[n]? ∧
        (IsCount x n →
          getElement sequence (.number x) image = .ok (items[n]?.getD .undefined) image) ∧
        ((∀ m, ¬ IsCount x m) → getElement sequence (.number x) image = .ok .undefined image)) ∧
      ∀ list, n ≤ wordLimit ∨ image.heap.EndsWithin wordLimit list →
        (∃ value, runBuiltin .nth [.number x, list] image = .ok value image ∧
          ∀ value', image.heap.IsNth list n value' ↔ value' = value) ∨
        (∃ text, runBuiltin .nth [.number x, list] image =
          .error (.failed (.typeError text "LIST")) image) ∧
          ∀ value, ¬ image.heap.IsNth list n value := by
  refine ⟨exists_takenFor x, fun n => IsCount.takenFor, fun n taken => ⟨?_, ?_⟩⟩
  · intro sequence items elements short
    exact ⟨aref_taken taken elements short, fun count => getElement_count count elements short,
      fun other => getElement_other other elements⟩
  · intro list near
    exact nth_taken taken near

/-- The vector `#(T #\\a)` and the list `(T)`. -/
def selectionImage : Image :=
  { Image.initial 10 with
    heap := { vectors := #[#[.t, .character 'a']], cells := #[⟨.t, .nil⟩] } }

theorem element_access_one :
    TakenFor 1 1 ∧
      runBuiltin .aref [.vector 0, .number 1] selectionImage = .ok (.character 'a') selectionImage ∧
      getElement (.vector 0) (.number 1) selectionImage = .ok (.character 'a') selectionImage ∧
      runBuiltin .nth [.number 1, .cons 0] selectionImage = .ok .nil selectionImage := by
  have count : IsCount 1 1 := isCount_ofNat (by decide)
  obtain ⟨-, takes, selects⟩ := element_access selectionImage 1
  obtain ⟨ofSequence, ofList⟩ := selects 1 (takes 1 count)
  obtain ⟨aref, indexed, -⟩ := ofSequence (.vector 0) [.t, .character 'a'] rfl (by decide)
  refine ⟨takes 1 count, aref, indexed count, ?_⟩
  have past : selectionImage.heap.IsNth (.cons 0) 1 .nil := .past (Nat.le_refl 1) (.next (.here _))
  rcases ofList (.cons 0) (.inl (by decide)) with ⟨value, ran, only⟩ | ⟨-, none_⟩
  · rw [ran, (only .nil).mp past]
  · exact absurd past (none_ .nil)

/-- Numbers that are no natural numbers select elements. -/
theorem other_numbers_select :
    runBuiltin .aref [.vector 0, .number (-1)] selectionImage = .ok .t selectionImage ∧
      runBuiltin .aref [.vector 0, .number 1.5] selectionImage = .ok (.character 'a') selectionImage ∧
      runBuiltin .nth [.number (-1), .cons 0] selectionImage = .ok .t selectionImage ∧
      getElement (.vector 0) (.number (-1)) selectionImage = .ok .undefined selectionImage := by
  have negative : toCount (-1) = 0 := by decide +kernel
  have fraction : toCount 1.5 = 1 := by decide +kernel
  have elements : selectionImage.heap.sequence? (.vector 0) = some [.t, .character 'a'] := rfl
  refine ⟨?_, ?_, ?_, ?_⟩
  · rw [aref_eq elements, negative]
    rfl
  · rw [aref_eq elements, fraction]
    rfl
  · rw [nth_eq, negative]
    rfl
  · rw [getElement_eq elements, if_neg (by decide +kernel)]

end Elements

end Machine

end LispScript
