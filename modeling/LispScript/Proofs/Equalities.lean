import LispScript.Proofs.Copies
import LispScript.Proofs.Numeral

/-!
The four equalities of values. Identity, the comparison of scripts, equality of lists and likeness of
structure each hold of more values than the one before, and each is an equivalence of the values that
end: those that do not contain themselves, in which every number is equal to itself.
-/

namespace LispScript

namespace Number

open Float.Model Float.Model.UnpackedFloat

/-- Zeros are equal whatever their signs, and all else is equal to itself alone. -/
theorem compare_eq_iff {u v : UnpackedFloat} :
    u.compare v = some .eq ↔ u = v ∧ u ≠ .notANumber ∨ ∃ s s', u = .zero s ∧ v = .zero s' := by
  constructor
  · intro same
    cases u with
    | notANumber => cases same
    | zero s =>
        cases v with
        | zero s' => exact .inr ⟨s, s', rfl, rfl⟩
        | notANumber => cases same
        | infinity s' | finite s' => cases s' <;> cases same
    | infinity s =>
        cases v with
        | infinity s' => cases s <;> cases s' <;> first | exact .inl ⟨rfl, nofun⟩ | cases same
        | notANumber | zero | finite => cases s <;> cases same
    | finite s significand exponent =>
        cases v with
        | finite s' significand' exponent' =>
            cases s <;> cases s' <;> simp_all [UnpackedFloat.compare, Ordering.then_eq_eq]
        | notANumber => cases s <;> cases same
        | zero s' => cases s <;> cases same
        | infinity s' => cases s <;> cases s' <;> cases same
  · rintro (⟨rfl, number⟩ | ⟨s, s', rfl, rfl⟩)
    · exact compare_self number
    · rfl

variable {x y z : Float}

theorem beq_self_of_number (number : x.isNaN = false) : (x == x) = true := by
  refine (beq_iff_compare x x).mpr (compare_self fun undefined => ?_)
  change x.toModel.unpack.isNaN = false at number
  rw [undefined] at number
  cases number

theorem beq_symm (same : (x == y) = true) : (y == x) = true := by
  rw [beq_iff_compare, compare_eq_iff] at same ⊢
  obtain ⟨same, number⟩ | ⟨s, s', atX, atY⟩ := same
  · exact .inl ⟨same.symm, same ▸ number⟩
  · exact .inr ⟨s', s, atY, atX⟩

theorem beq_trans (first : (x == y) = true) (second : (y == z) = true) : (x == z) = true := by
  rw [beq_iff_compare, compare_eq_iff] at first second ⊢
  obtain ⟨same, number⟩ | ⟨s, s', atX, atY⟩ := first
  · rwa [same]
  · obtain ⟨same, -⟩ | ⟨-, s'', -, atZ⟩ := second
    · exact .inr ⟨s, s', atX, same ▸ atY⟩
    · exact .inr ⟨s, s'', atX, atZ⟩

end Number

namespace Value

variable {x y z : Value}

/-- Identical values are the same but for the sign of a zero and the text of a string. -/
theorem eql_cases (same : x.eql y = true) : x = y ∨
    (∃ a s t, x = .string a s ∧ y = .string a t) ∨
    ∃ m n, x = .number m ∧ y = .number n ∧ (m == n) = true := by
  unfold eql at same
  split at same
  case h_3 => exact .inr (.inr ⟨_, _, rfl, rfl, same⟩)
  case h_8 => exact .inr (.inl ⟨_, _, _, rfl, by rw [eq_of_beq same]⟩)
  case h_1 | h_2 => exact .inl rfl
  case h_14 => cases same
  all_goals exact .inl (congrArg _ (eq_of_beq same))

theorem eql_self (number : ∀ n, x = .number n → n.isNaN = false) : x.eql x = true := by
  cases x with
  | nil | undefined => rfl
  | number n => exact Number.beq_self_of_number (number n rfl)
  | _ => exact beq_self_eq_true _

theorem eql_symm (same : x.eql y = true) : y.eql x = true := by
  obtain rfl | ⟨a, s, t, rfl, rfl⟩ | ⟨m, n, rfl, rfl, equal⟩ := eql_cases same
  · exact same
  · exact beq_self_eq_true a
  · exact Number.beq_symm equal

theorem eql_trans (first : x.eql y = true) (second : y.eql z = true) : x.eql z = true := by
  obtain rfl | ⟨a, s, t, rfl, rfl⟩ | ⟨m, n, rfl, rfl, equal⟩ := eql_cases first
  · exact second
  · obtain rfl | ⟨b, t', u, atY, rfl⟩ | ⟨m, n, atY, -, -⟩ := eql_cases second
    · exact first
    · cases atY
      exact beq_self_eq_true a
    · cases atY
  · obtain rfl | ⟨b, t, u, atY, -⟩ | ⟨n', k, atY, rfl, equal'⟩ := eql_cases second
    · exact first
    · cases atY
    · cases atY
      exact Number.beq_trans equal equal'

/-- The comparison of scripts is identity but for strings, of which it compares the texts. -/
theorem strictEq_iff : x.strictEq y = true ↔
    (∃ a b s, x = .string a s ∧ y = .string b s) ∨ x.isString = false ∧ x.eql y = true := by
  constructor
  · intro same
    unfold strictEq at same
    split at same
    · exact .inl ⟨_, _, _, rfl, by rw [eq_of_beq same]⟩
    · rename_i other
      refine .inr ⟨?_, same⟩
      obtain rfl | ⟨a, s, t, rfl, rfl⟩ | ⟨m, n, rfl, -, -⟩ := eql_cases same
      · cases x <;> first | rfl | exact absurd rfl (other _ _ _ _ rfl)
      · exact absurd rfl (other _ _ _ _ rfl)
      · rfl
  · rintro (⟨a, b, s, rfl, rfl⟩ | ⟨other, same⟩)
    · exact beq_self_eq_true s
    · unfold strictEq
      split
      · cases other
      · exact same

/-- But for two strings the comparison of scripts is identity. -/
theorem strictEq_eq_eql (other : ∀ a s b t, x = .string a s → y = .string b t → False) :
    x.strictEq y = x.eql y := by
  unfold strictEq
  split
  · exact (other _ _ _ _ rfl rfl).elim
  · rfl

theorem strictEq_self (number : ∀ n, x = .number n → n.isNaN = false) : x.strictEq x = true := by
  cases x with
  | string a s => exact beq_self_eq_true s
  | _ => exact eql_self number

theorem isString_of_eql (same : x.eql y = true) : y.isString = x.isString := by
  obtain rfl | ⟨a, s, t, rfl, rfl⟩ | ⟨m, n, rfl, rfl, -⟩ := eql_cases same <;> rfl

theorem strictEq_symm (same : x.strictEq y = true) : y.strictEq x = true := by
  rw [strictEq_iff] at same ⊢
  obtain ⟨a, b, s, rfl, rfl⟩ | ⟨other, same⟩ := same
  · exact .inl ⟨b, a, s, rfl, rfl⟩
  · exact .inr ⟨(isString_of_eql same).trans other, eql_symm same⟩

theorem strictEq_trans (first : x.strictEq y = true) (second : y.strictEq z = true) :
    x.strictEq z = true := by
  rw [strictEq_iff] at first second ⊢
  obtain ⟨a, b, s, rfl, rfl⟩ | ⟨other, first⟩ := first
  · obtain ⟨b', c, s', atY, rfl⟩ | ⟨other, -⟩ := second
    · cases atY
      exact .inl ⟨a, c, s, rfl, rfl⟩
    · cases other
  · obtain ⟨b, c, s, rfl, rfl⟩ | ⟨-, second⟩ := second
    · cases (isString_of_eql first).trans other
    · exact .inr ⟨other, eql_trans first second⟩

theorem cases_of_hasParts (whole : x.hasParts = true) :
    (∃ a, x = .cons a) ∨ (∃ a, x = .vector a) ∨ ∃ a, x = .bundle a := by
  cases x with
  | cons a => exact .inl ⟨a, rfl⟩
  | vector a => exact .inr (.inl ⟨a, rfl⟩)
  | bundle a => exact .inr (.inr ⟨a, rfl⟩)
  | _ => cases whole

/-- A value with parts is compared by identity. -/
theorem eq_of_strictEq (whole : y.hasParts = true) (same : x.strictEq y = true) : x = y := by
  obtain ⟨a, b, s, -, rfl⟩ | ⟨-, same⟩ := strictEq_iff.mp same
  · cases whole
  · obtain same | ⟨a, s, t, -, rfl⟩ | ⟨m, n, -, rfl, -⟩ := eql_cases same
    · exact same
    · cases whole
    · cases whole

theorem hasParts_of_strictEq (same : x.strictEq y = true) : y.hasParts = x.hasParts := by
  cases whole : y.hasParts with
  | true => rw [eq_of_strictEq whole same, whole]
  | false =>
      cases whole' : x.hasParts with
      | false => rfl
      | true => rw [eq_of_strictEq whole' (strictEq_symm same), whole'] at whole; cases whole

end Value

namespace Heap

variable {heap : Heap} {x y z : Value} {depth : Nat} {r : Value → Value → Prop}

section Steps

/-- What equality of lists says of two values when their parts are compared by the given relation. -/
inductive EqualBy (heap : Heap) (r : Value → Value → Prop) : Value → Value → Prop where
  | same {x y : Value} (held : x.strictEq y = true) : EqualBy heap r x y
  | cons {a b : Address} (car : r (heap.cell a).car (heap.cell b).car)
      (cdr : r (heap.cell a).cdr (heap.cell b).cdr) : EqualBy heap r (.cons a) (.cons b)

/-- What likeness of structure says of two values. -/
inductive SimilarBy (heap : Heap) (r : Value → Value → Prop) : Value → Value → Prop where
  | atom {x y : Value} (flat : x.hasParts = false) (held : x.strictEq y = true) : SimilarBy heap r x y
  | cons {a b : Address} (car : r (heap.cell a).car (heap.cell b).car)
      (cdr : r (heap.cell a).cdr (heap.cell b).cdr) : SimilarBy heap r (.cons a) (.cons b)
  | vector {a b : Address} (items : List.Forall₂ r (heap.vector a).toList (heap.vector b).toList) :
      SimilarBy heap r (.vector a) (.vector b)
  | bundle {a b : Address} (values : List.Forall₂ r (heap.bundle a) (heap.bundle b)) :
      SimilarBy heap r (.bundle a) (.bundle b)

theorem equalWithin_succ : heap.equalWithin (depth + 1) x y = true ↔
    heap.EqualBy (fun p q => heap.equalWithin depth p q = true) x y := by
  constructor
  · intro equal
    unfold equalWithin at equal
    split at equal
    · rename_i deeper
      cases deeper
      obtain same | parts := Bool.or_eq_true_iff.mp equal
      · exact .same same
      · obtain ⟨car, cdr⟩ := Bool.and_eq_true_iff.mp parts
        exact .cons car cdr
    · exact .same equal
    · rename_i other
      exact .same ((Value.strictEq_eq_eql other).trans equal)
    · contradiction
  · rintro (held | ⟨car, cdr⟩)
    · unfold equalWithin
      split
      · exact Bool.or_eq_true_iff.mpr (.inl held)
      · exact held
      · rename_i other
        exact (Value.strictEq_eq_eql other).symm.trans held
      · contradiction
    · exact Bool.or_eq_true_iff.mpr (.inr (Bool.and_eq_true_iff.mpr ⟨car, cdr⟩))

/-- Lists of one length are compared element by element. -/
theorem all_zip_iff {same : Value → Value → Bool} {items items' : List Value} :
    (items.length == items'.length && (items.zip items').all fun (p, q) => same p q) = true ↔
      List.Forall₂ (fun p q => same p q = true) items items' := by
  induction items generalizing items' with
  | nil => cases items' <;> simp
  | cons item items ih =>
      cases items' with
      | nil => simp
      | cons item' items' =>
          rw [List.forall₂_cons, ← ih]
          simp only [List.length_cons, List.zip_cons_cons, List.all_cons, Bool.and_eq_true,
            beq_iff_eq, Nat.succ_inj]
          tauto

theorem similarWithin_succ : heap.similarWithin (depth + 1) x y = true ↔
    heap.SimilarBy (fun p q => heap.similarWithin depth p q = true) x y := by
  have vectors {a b : Address} : ((heap.vector a).size == (heap.vector b).size &&
      ((heap.vector a).toList.zip (heap.vector b).toList).all fun (p, q) =>
        heap.similarWithin depth p q) = true ↔
      List.Forall₂ (fun p q => heap.similarWithin depth p q = true) (heap.vector a).toList
        (heap.vector b).toList := by
    rw [← all_zip_iff, Array.length_toList, Array.length_toList]
  constructor
  · intro similar
    unfold similarWithin at similar
    split at similar
    · rename_i deeper
      cases deeper
      obtain ⟨car, cdr⟩ := Bool.and_eq_true_iff.mp similar
      exact .cons car cdr
    · exact .atom rfl similar
    · rename_i deeper
      cases deeper
      exact .vector (vectors.mp similar)
    · rename_i deeper
      cases deeper
      exact .bundle (all_zip_iff.mp similar)
    · rename_i notConses notStrings notVectors notBundles
      have same := (Value.strictEq_eq_eql notStrings).trans similar
      refine .atom (Bool.eq_false_iff.mpr fun whole => ?_) same
      obtain rfl := Value.eq_of_strictEq ((Value.hasParts_of_strictEq same).trans whole) same
      obtain ⟨a, rfl⟩ | ⟨a, rfl⟩ | ⟨a, rfl⟩ := Value.cases_of_hasParts whole
      · exact notConses _ _ rfl rfl
      · exact notVectors _ _ rfl rfl
      · exact notBundles _ _ rfl rfl
    · contradiction
  · intro similar
    cases similar with
    | cons car cdr => exact Bool.and_eq_true_iff.mpr ⟨car, cdr⟩
    | vector items => exact vectors.mpr items
    | bundle values => exact all_zip_iff.mpr values
    | atom flat held =>
        unfold similarWithin
        split
        · cases flat
        · exact held
        · cases flat
        · cases flat
        · rename_i notStrings _ _
          exact (Value.strictEq_eq_eql notStrings).symm.trans held
        · contradiction

end Steps

section Relations

theorem EqualBy.symm (symm : ∀ p q, r p q → r q p) (equal : heap.EqualBy r x y) :
    heap.EqualBy r y x := by
  cases equal with
  | same held => exact .same (Value.strictEq_symm held)
  | cons car cdr => exact .cons (symm _ _ car) (symm _ _ cdr)

theorem EqualBy.trans (trans : ∀ p q s, r p q → r q s → r p s) (first : heap.EqualBy r x y)
    (second : heap.EqualBy r y z) : heap.EqualBy r x z := by
  cases first with
  | same held =>
      cases second with
      | same held' => exact .same (Value.strictEq_trans held held')
      | cons car cdr =>
          obtain rfl := Value.eq_of_strictEq rfl held
          exact .cons car cdr
  | cons car cdr =>
      cases second with
      | same held =>
          obtain rfl := Value.eq_of_strictEq rfl (Value.strictEq_symm held)
          exact .cons car cdr
      | cons car' cdr' => exact .cons (trans _ _ _ car car') (trans _ _ _ cdr cdr')

theorem forall₂_symm (symm : ∀ p q, r p q → r q p) {items items' : List Value}
    (each : List.Forall₂ r items items') : List.Forall₂ r items' items :=
  each.flip.imp fun _ _ held => symm _ _ held

theorem forall₂_trans (trans : ∀ p q s, r p q → r q s → r p s) {first second third : List Value}
    (each : List.Forall₂ r first second) (next : List.Forall₂ r second third) :
    List.Forall₂ r first third := by
  induction each generalizing third with
  | nil =>
      cases next
      exact .nil
  | cons held _ ih =>
      cases next with
      | cons held' next => exact .cons (trans _ _ _ held held') (ih next)

theorem SimilarBy.symm (symm : ∀ p q, r p q → r q p) (similar : heap.SimilarBy r x y) :
    heap.SimilarBy r y x := by
  cases similar with
  | atom flat held =>
      exact .atom ((Value.hasParts_of_strictEq held).trans flat) (Value.strictEq_symm held)
  | cons car cdr => exact .cons (symm _ _ car) (symm _ _ cdr)
  | vector items => exact .vector (forall₂_symm symm items)
  | bundle values => exact .bundle (forall₂_symm symm values)

theorem SimilarBy.trans (trans : ∀ p q s, r p q → r q s → r p s) (first : heap.SimilarBy r x y)
    (second : heap.SimilarBy r y z) : heap.SimilarBy r x z := by
  cases first with
  | atom flat held =>
      have flat' := (Value.hasParts_of_strictEq held).trans flat
      cases second with
      | atom _ held' => exact .atom flat (Value.strictEq_trans held held')
      | cons | vector | bundle => cases flat'
  | cons car cdr =>
      cases second with
      | atom flat => cases flat
      | cons car' cdr' => exact .cons (trans _ _ _ car car') (trans _ _ _ cdr cdr')
  | vector items =>
      cases second with
      | atom flat => cases flat
      | vector items' => exact .vector (forall₂_trans trans items items')
  | bundle values =>
      cases second with
      | atom flat => cases flat
      | bundle values' => exact .bundle (forall₂_trans trans values values')

theorem equalWithin_symm (equal : heap.equalWithin depth x y = true) :
    heap.equalWithin depth y x = true := by
  induction depth generalizing x y with
  | zero => simp [equalWithin] at equal
  | succ depth ih =>
      exact equalWithin_succ.mpr ((equalWithin_succ.mp equal).symm fun _ _ held => ih held)

theorem equalWithin_trans (first : heap.equalWithin depth x y = true)
    (second : heap.equalWithin depth y z = true) : heap.equalWithin depth x z = true := by
  induction depth generalizing x y z with
  | zero => simp [equalWithin] at first
  | succ depth ih =>
      exact equalWithin_succ.mpr ((equalWithin_succ.mp first).trans
        (fun _ _ _ held held' => ih held held') (equalWithin_succ.mp second))

theorem similarWithin_symm (similar : heap.similarWithin depth x y = true) :
    heap.similarWithin depth y x = true := by
  induction depth generalizing x y with
  | zero => simp [similarWithin] at similar
  | succ depth ih =>
      exact similarWithin_succ.mpr ((similarWithin_succ.mp similar).symm fun _ _ held => ih held)

theorem similarWithin_trans (first : heap.similarWithin depth x y = true)
    (second : heap.similarWithin depth y z = true) : heap.similarWithin depth x z = true := by
  induction depth generalizing x y z with
  | zero => simp [similarWithin] at first
  | succ depth ih =>
      exact similarWithin_succ.mpr ((similarWithin_succ.mp first).trans
        (fun _ _ _ held held' => ih held held') (similarWithin_succ.mp second))

end Relations

section Data

/-- Which values stand in a cons, a vector or a bundle. -/
inductive Component (heap : Heap) : Value → Value → Prop where
  | part {part whole : Value} (step : heap.Part part whole) : Component heap part whole
  | value {a : Address} {value : Value} (inside : a < heap.bundles.size)
      (member : value ∈ heap.bundle a) : Component heap value (.bundle a)

/-- A value that ends: whatever it consists of is in the heap, nothing in it contains itself, and no
number in it is a NaN. The address of a string tells its text, as `texts` says. -/
inductive Founded (heap : Heap) (texts : Address → String) : Value → Prop where
  | atom {value : Value} (flat : value.hasParts = false) (noText : value.isString = false)
      (number : ∀ n, value = .number n → n.isNaN = false) : Founded heap texts value
  | string (a : Address) : Founded heap texts (.string a (texts a))
  | cons {a : Address} (inside : a < heap.cells.size) (car : Founded heap texts (heap.cell a).car)
      (cdr : Founded heap texts (heap.cell a).cdr) : Founded heap texts (.cons a)
  | vector {a : Address} (inside : a < heap.vectors.size)
      (items : ∀ item ∈ (heap.vector a).toList, Founded heap texts item) :
      Founded heap texts (.vector a)
  | bundle {a : Address} (inside : a < heap.bundles.size)
      (values : ∀ value ∈ heap.bundle a, Founded heap texts value) :
      Founded heap texts (.bundle a)

variable {texts : Address → String}

theorem Founded.number (founded : heap.Founded texts x) :
    ∀ n, x = .number n → n.isNaN = false := by
  cases founded with
  | atom _ _ number => exact number
  | _ => nofun

theorem Component.whole (step : heap.Component y x) :
    (∃ a, x = .cons a ∧ a < heap.cells.size) ∨ (∃ a, x = .vector a ∧ a < heap.vectors.size) ∨
      ∃ a, x = .bundle a ∧ a < heap.bundles.size := by
  cases step with
  | value inside => exact .inr (.inr ⟨_, rfl, inside⟩)
  | part step =>
      cases step with
      | car inside | cdr inside => exact .inl ⟨_, rfl, inside⟩
      | item inside => exact .inr (.inl ⟨_, rfl, inside⟩)

theorem Component.hasParts (step : heap.Component y x) : x.hasParts = true := by
  obtain ⟨a, rfl, -⟩ | ⟨a, rfl, -⟩ | ⟨a, rfl, -⟩ := step.whole <;> rfl

/-- What ends does not contain itself. -/
theorem Founded.acyclic (founded : heap.Founded texts x) : Acc heap.Component x := by
  induction founded with
  | atom flat => exact ⟨_, fun part step => absurd step.hasParts (Bool.eq_false_iff.mp flat)⟩
  | string a => exact ⟨_, fun part step => absurd step.hasParts Bool.false_ne_true⟩
  | cons _ _ _ car cdr =>
      refine ⟨_, fun part step => ?_⟩
      cases step with
      | part step =>
          cases step with
          | car => exact car
          | cdr => exact cdr
  | vector _ _ items =>
      refine ⟨_, fun part step => ?_⟩
      cases step with
      | part step =>
          cases step with
          | item _ member => exact items part member
  | bundle _ _ values =>
      refine ⟨_, fun part step => ?_⟩
      cases step with
      | part step => cases step
      | value _ member => exact values part member

/-- The wholes numbered, the conses first and the bundles last. -/
def wholeNumber (heap : Heap) : Value → Nat
  | .cons a => a
  | .vector a => heap.cells.size + a
  | .bundle a => heap.cells.size + heap.vectors.size + a
  | _ => 0

/-- What ends goes no deeper than there are conses, vectors and bundles. -/
theorem Founded.descends (founded : heap.Founded texts x) : Descends heap.Component heap.size x := by
  refine descends_of_acyclic heap.wholeNumber founded.acyclic (fun part whole step => ?_)
    fun part part' whole whole' step step' same => ?_
  · obtain ⟨a, rfl, inside⟩ | ⟨a, rfl, inside⟩ | ⟨a, rfl, inside⟩ := step.whole
    · exact Nat.lt_add_right _ (Nat.lt_add_right _ inside)
    · exact Nat.lt_add_right _ (Nat.add_lt_add_left inside _)
    · exact Nat.add_lt_add_left inside _
  · obtain ⟨a, rfl, inside⟩ | ⟨a, rfl, inside⟩ | ⟨a, rfl, inside⟩ := step.whole <;>
    obtain ⟨b, rfl, inside'⟩ | ⟨b, rfl, inside'⟩ | ⟨b, rfl, inside'⟩ := step'.whole <;>
    simp only [wholeNumber] at same <;> grind

theorem equalWithin_self (number : ∀ n, x = .number n → n.isNaN = false) :
    heap.equalWithin (depth + 1) x x = true :=
  equalWithin_succ.mpr (.same (Value.strictEq_self number))

theorem forall₂_self {items : List Value} (each : ∀ item ∈ items, r item item) :
    List.Forall₂ r items items :=
  List.forall₂_same.mpr each

theorem Founded.similarWithin_self (founded : heap.Founded texts x)
    (deep : Descends heap.Component depth x) : heap.similarWithin depth x x = true := by
  induction founded generalizing depth with
  | @atom x flat noText number =>
      cases depth with
      | zero => cases deep
      | succ depth => exact similarWithin_succ.mpr (.atom flat (Value.strictEq_self number))
  | string a =>
      cases depth with
      | zero => cases deep
      | succ depth => exact similarWithin_succ.mpr (.atom rfl (Value.strictEq_self nofun))
  | cons inside _ _ car cdr =>
      cases depth with
      | zero => cases deep
      | succ depth =>
          exact similarWithin_succ.mpr (.cons (car (deep _ (.part (.car inside))))
            (cdr (deep _ (.part (.cdr inside)))))
  | vector inside _ items =>
      cases depth with
      | zero => cases deep
      | succ depth =>
          exact similarWithin_succ.mpr (.vector (forall₂_self fun item member =>
            items item member (deep item (.part (.item inside member)))))
  | bundle inside _ values =>
      cases depth with
      | zero => cases deep
      | succ depth =>
          exact similarWithin_succ.mpr (.bundle (forall₂_self fun value member =>
            values value member (deep value (.value inside member))))

/-- Equal lists are alike in structure, however deep the comparisons go. -/
theorem Founded.similarWithin_of_equalWithin {deeper : Nat} (founded : heap.Founded texts x)
    (deep : Descends heap.Component deeper x) (equal : heap.equalWithin depth x y = true) :
    heap.similarWithin deeper x y = true := by
  induction depth generalizing x y deeper with
  | zero => simp [equalWithin] at equal
  | succ depth ih =>
      cases deeper with
      | zero => cases deep
      | succ deeper =>
          cases equalWithin_succ.mp equal with
          | same held =>
              cases whole : x.hasParts with
              | false => exact similarWithin_succ.mpr (.atom whole held)
              | true =>
                  obtain rfl :=
                    Value.eq_of_strictEq ((Value.hasParts_of_strictEq held).trans whole) held
                  exact founded.similarWithin_self deep
          | @cons a b car cdr =>
              cases founded with
              | atom flat => cases flat
              | cons inside carFounded cdrFounded =>
                  exact similarWithin_succ.mpr (.cons
                    (ih carFounded (deep _ (.part (.car inside))) car)
                    (ih cdrFounded (deep _ (.part (.cdr inside))) cdr))

end Data

/-- Identity, the comparison of scripts, equality of lists and likeness of structure are equivalences
of the values that end, and each holds where the one before holds. -/
theorem equalities_nested (heap : Heap) (texts : Address → String) :
    let Data := {value : Value // heap.Founded texts value}
    (∀ x y : Data, x.1.eql y.1 = true → x.1.strictEq y.1 = true) ∧
    (∀ x y : Data, x.1.strictEq y.1 = true → heap.equal x.1 y.1 = true) ∧
    (∀ x y : Data, heap.equal x.1 y.1 = true → heap.similar x.1 y.1 = true) ∧
    Equivalence (fun x y : Data => x.1.eql y.1 = true) ∧
    Equivalence (fun x y : Data => x.1.strictEq y.1 = true) ∧
    Equivalence (fun x y : Data => heap.equal x.1 y.1 = true) ∧
    Equivalence (fun x y : Data => heap.similar x.1 y.1 = true) := by
  intro Data
  refine ⟨fun x y same => ?_, fun x y same => ?_, fun x y same => ?_, ?_, ?_, ?_, ?_⟩
  · obtain ⟨x, founded⟩ := x
    obtain ⟨y, founded'⟩ := y
    obtain rfl | ⟨a, s, t, rfl, rfl⟩ | ⟨m, n, rfl, rfl, equal⟩ := Value.eql_cases same
    · exact Value.strictEq_self founded.number
    · cases founded with
      | atom _ noText => cases noText
      | string =>
        cases founded' with
        | atom _ noText => cases noText
        | string => exact Value.strictEq_self nofun
    · exact equal
  · exact equalWithin_succ.mpr (.same same)
  · exact x.2.similarWithin_of_equalWithin x.2.descends same
  · exact ⟨fun x => Value.eql_self x.2.number, Value.eql_symm, Value.eql_trans⟩
  · exact ⟨fun x => Value.strictEq_self x.2.number, Value.strictEq_symm, Value.strictEq_trans⟩
  · exact ⟨fun x => equalWithin_self x.2.number, equalWithin_symm, equalWithin_trans⟩
  · exact ⟨fun x => x.2.similarWithin_self x.2.descends, similarWithin_symm, similarWithin_trans⟩

/-- Two conses hold equal strings and share a vector, in which a bundle stands. -/
def shared : Heap where
  cells := #[⟨.string 0 "a", .vector 0⟩, ⟨.string 1 "a", .vector 0⟩]
  vectors := #[#[.number 1, .bundle 0]]
  bundles := #[[.bool true, .undefined]]
  strings := 2

theorem equalities_nested_of_shared :
    let texts : Address → String := fun _ => "a"
    shared.Founded texts (.cons 0) ∧ shared.Founded texts (.cons 1) ∧
      shared.equal (.cons 0) (.cons 1) = true ∧ shared.similar (.cons 0) (.cons 1) = true ∧
      shared.similar (.cons 1) (.cons 0) = true := by
  intro texts
  have constant (value : Value) (flat : value.hasParts = false) (noText : value.isString = false)
      (noNumber : value.isNumber = false) : shared.Founded texts value :=
    .atom flat noText fun n same => by cases same; cases noNumber
  have bundle : shared.Founded texts (.bundle 0) := by
    refine .bundle Nat.one_pos fun value member => ?_
    obtain rfl | rfl : value = .bool true ∨ value = .undefined := by
      simpa [shared, Heap.bundle] using member
    · exact constant _ rfl rfl rfl
    · exact constant _ rfl rfl rfl
  have vector : shared.Founded texts (.vector 0) := by
    refine .vector Nat.one_pos fun item member => ?_
    obtain rfl | rfl : item = .number 1 ∨ item = .bundle 0 := by
      simpa [shared, Heap.vector] using member
    · exact .atom rfl rfl fun n same => by cases same; decide
    · exact bundle
  have first : shared.Founded texts (.cons 0) := .cons (by decide) (.string 0) vector
  have second : shared.Founded texts (.cons 1) := .cons (by decide) (.string 1) vector
  have equal : shared.equal (.cons 0) (.cons 1) = true := by decide
  obtain ⟨-, -, similar, -, -, -, equivalence⟩ := equalities_nested shared texts
  have alike := similar ⟨_, first⟩ ⟨_, second⟩ equal
  exact ⟨first, second, equal, alike, equivalence.symm alike⟩

end Heap

end LispScript
