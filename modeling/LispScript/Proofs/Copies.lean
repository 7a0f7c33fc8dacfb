import Mathlib
import LispScript.Equality

/-!
Data in the heap and copies of it. Data without cycles goes no deeper than the heap is large, so that
lists are split to their ends and a copy is told to be equal. Objects that are added later change
nothing about the data that was there.
-/

namespace LispScript

/-- Conses, vectors and bundles have parts that are compared one by one. -/
def Value.hasParts : Value → Bool
  | cons _ | vector _ | bundle _ => true
  | _ => false

namespace Heap

/-- A value is the element of a vector or stands in a cons. -/
inductive Part (heap : Heap) : Value → Value → Prop where
  | car {a : Address} (bound : a < heap.cells.size) : Part heap (heap.cell a).car (.cons a)
  | cdr {a : Address} (bound : a < heap.cells.size) : Part heap (heap.cell a).cdr (.cons a)
  | item {a : Address} {value : Value} (bound : a < heap.vectors.size)
      (member : value ∈ (heap.vector a).toList) : Part heap value (.vector a)

/-- A chain of conses with the values that stand in them and what follows the last one. -/
inductive Spine (heap : Heap) : Value → List Value → Value → Prop where
  | done {tail : Value} (ends : tail.isCons = false) : Spine heap tail [] tail
  | cons {a : Address} {items : List Value} {tail : Value} (bound : a < heap.cells.size)
      (rest : Spine heap (heap.cell a).cdr items tail) :
      Spine heap (.cons a) ((heap.cell a).car :: items) tail

/-- A chain of conses that begins with the given values, and what follows their conses. -/
inductive Heads (heap : Heap) : Value → List Value → Value → Prop where
  | done (tail : Value) : Heads heap tail [] tail
  | cons {a : Address} {items : List Value} {tail : Value} (bound : a < heap.cells.size)
      (rest : Heads heap (heap.cell a).cdr items tail) :
      Heads heap (.cons a) ((heap.cell a).car :: items) tail

/-- Two values have the same shape and equal atoms in the same places. -/
inductive Same (heap : Heap) : Value → Value → Prop where
  | atom {x y : Value} (flat : x.hasParts = false) (equal : x.strictEq y = true) : Same heap x y
  | cons {a b : Address} (left : a < heap.cells.size) (right : b < heap.cells.size)
      (car : Same heap (heap.cell a).car (heap.cell b).car)
      (cdr : Same heap (heap.cell a).cdr (heap.cell b).cdr) : Same heap (.cons a) (.cons b)
  | vector {a b : Address} (left : a < heap.vectors.size) (right : b < heap.vectors.size)
      (size : (heap.vector a).size = (heap.vector b).size)
      (items : ∀ (i : Nat) (x y : Value), (heap.vector a)[i]? = some x →
        (heap.vector b)[i]? = some y → Same heap x y) : Same heap (.vector a) (.vector b)

/-- Conses and vectors are as they were, and there may be more of them. -/
structure Keeps (heap later : Heap) : Prop where
  cells : heap.cells.size ≤ later.cells.size
  cell : ∀ a, a < heap.cells.size → later.cell a = heap.cell a
  vectors : heap.vectors.size ≤ later.vectors.size
  vector : ∀ a, a < heap.vectors.size → later.vector a = heap.vector a

/-- The parts of a value and theirs go at most so many steps down. -/
def Shallow (heap : Heap) : Nat → Value → Prop
  | 0, _ => False
  | depth + 1, value => ∀ part, heap.Part part value → heap.Shallow depth part

variable {heap later last : Heap} {value copy tail tail' : Value} {items items' : List Value}

section Later

theorem Keeps.refl (heap : Heap) : heap.Keeps heap :=
  ⟨Nat.le_refl _, fun _ _ => rfl, Nat.le_refl _, fun _ _ => rfl⟩

theorem Keeps.trans (first : heap.Keeps later) (second : later.Keeps last) : heap.Keeps last where
  cells := Nat.le_trans first.cells second.cells
  cell a bound := (second.cell a (Nat.lt_of_lt_of_le bound first.cells)).trans (first.cell a bound)
  vectors := Nat.le_trans first.vectors second.vectors
  vector a bound :=
    (second.vector a (Nat.lt_of_lt_of_le bound first.vectors)).trans (first.vector a bound)

theorem Same.kept (same : heap.Same value copy) (keeps : heap.Keeps later) :
    later.Same value copy := by
  induction same with
  | atom flat equal => exact .atom flat equal
  | cons left right _ _ car cdr =>
      rw [← keeps.cell _ left, ← keeps.cell _ right] at car cdr
      exact .cons (Nat.lt_of_lt_of_le left keeps.cells) (Nat.lt_of_lt_of_le right keeps.cells) car cdr
  | vector left right size _ items =>
      rw [← keeps.vector _ left, ← keeps.vector _ right] at items size
      exact .vector (Nat.lt_of_lt_of_le left keeps.vectors)
        (Nat.lt_of_lt_of_le right keeps.vectors) size items

theorem Spine.kept (spine : heap.Spine value items tail) (keeps : heap.Keeps later) :
    later.Spine value items tail := by
  induction spine with
  | done ends => exact .done ends
  | cons bound _ rest =>
      rw [← keeps.cell _ bound] at rest ⊢
      exact .cons (Nat.lt_of_lt_of_le bound keeps.cells) rest

theorem keeps_allocCell (heap : Heap) (car cdr : Value) :
    heap.Keeps (heap.allocCell car cdr).2 where
  cells := by simp [allocCell]
  cell _ bound := allocCell_cell_of_lt bound
  vectors := Nat.le_refl _
  vector _ _ := rfl

theorem keeps_allocVector (heap : Heap) (items : Array Value) :
    heap.Keeps (heap.allocVector items).2 where
  cells := Nat.le_refl _
  cell _ _ := rfl
  vectors := by simp [allocVector]
  vector a bound := by simp [allocVector, Heap.vector, Array.getElem?_push, Nat.ne_of_lt bound]

theorem keeps_allocString (heap : Heap) (text : String) :
    heap.Keeps (heap.allocString text).2 :=
  ⟨Nat.le_refl _, fun _ _ => rfl, Nat.le_refl _, fun _ _ => rfl⟩

end Later

section Lists

/-- A spine of so many conses at most is split to its end. -/
theorem spineFrom_eq {limit : Nat} (spine : heap.Spine value items tail)
    (enough : items.length ≤ limit) (seen : List Value) :
    heap.spineFrom limit seen value = (seen.reverse ++ items, tail) := by
  induction spine generalizing limit seen with
  | @done tail ends =>
      rw [List.append_nil]
      cases limit with
      | zero => rfl
      | succ limit => cases tail <;> first | rfl | cases ends
  | cons bound rest ih =>
      cases limit with
      | zero => cases enough
      | succ limit =>
          rw [spineFrom, ih (Nat.le_of_succ_le_succ enough)]
          simp

theorem Heads.kept (heads : heap.Heads value items tail) (keeps : heap.Keeps later) :
    later.Heads value items tail := by
  induction heads with
  | done tail => exact .done tail
  | cons bound rest ih =>
      rw [← keeps.cell _ bound] at ih ⊢
      exact .cons (bound.trans_le keeps.cells) ih

theorem Heads.spine (heads : heap.Heads value items tail) (ends : tail.isCons = false) :
    heap.Spine value items tail := by
  induction heads with
  | done tail => exact .done ends
  | cons bound rest ih => exact .cons bound (ih ends)

/-- A fresh list has the given items before the given tail. -/
theorem heads_allocListWithTail (heap : Heap) (items : List Value) (tail : Value) :
    heap.Keeps (heap.allocListWithTail items tail).2 ∧
      (heap.allocListWithTail items tail).2.cells.size = heap.cells.size + items.length ∧
      (heap.allocListWithTail items tail).2.Heads (heap.allocListWithTail items tail).1 items
        tail := by
  induction items with
  | nil => exact ⟨.refl heap, rfl, .done tail⟩
  | cons item items ih =>
      obtain ⟨keeps, size, heads⟩ := ih
      have step : heap.allocListWithTail (item :: items) tail =
          (heap.allocListWithTail items tail).2.allocCell item
            (heap.allocListWithTail items tail).1 := rfl
      rw [step]
      generalize heap.allocListWithTail items tail = result at keeps size heads
      have grows := keeps_allocCell result.2 item result.1
      refine ⟨keeps.trans grows, ?_, ?_⟩
      · rw [allocCell, Array.size_push, size, List.length_cons, Nat.add_assoc]
      · have cell : (result.2.allocCell item result.1).2.cell result.2.cells.size =
            ⟨item, result.1⟩ := allocCell_cell
        have rest := heads.kept grows
        have whole : (result.2.allocCell item result.1).2.Heads (.cons result.2.cells.size)
            (((result.2.allocCell item result.1).2.cell result.2.cells.size).car :: items) tail :=
          .cons (by simp [allocCell]) (by rw [cell]; exact rest)
        rw [cell] at whole
        exact whole

/-- A fresh list has the given items and ends in the given tail. -/
theorem spine_allocListWithTail (heap : Heap) (items : List Value) (ends : tail.isCons = false) :
    heap.Keeps (heap.allocListWithTail items tail).2 ∧
      (heap.allocListWithTail items tail).2.cells.size = heap.cells.size + items.length ∧
      (heap.allocListWithTail items tail).2.Spine (heap.allocListWithTail items tail).1 items
        tail := by
  obtain ⟨keeps, size, heads⟩ := heads_allocListWithTail heap items tail
  exact ⟨keeps, size, heads.spine ends⟩

/-- Lists with the same elements and tails are the same. -/
theorem Same.list (spine : heap.Spine value items tail) (spine' : heap.Spine copy items' tail')
    (elements : List.Forall₂ heap.Same items items') (tails : heap.Same tail tail') :
    heap.Same value copy := by
  induction spine generalizing copy items' with
  | done ends =>
      cases elements
      cases spine'
      exact tails
  | cons bound rest ih =>
      cases elements with
      | cons element elements =>
          cases spine' with
          | cons bound' rest' => exact .cons bound bound' element (ih rest' elements tails)

theorem Same.ofItems {a b : Address} (left : a < heap.vectors.size) (right : b < heap.vectors.size)
    (elements : List.Forall₂ heap.Same (heap.vector a).toList (heap.vector b).toList) :
    heap.Same (.vector a) (.vector b) := by
  refine .vector left right (by simpa using elements.length_eq) fun i x y atX atY => ?_
  rw [← Array.getElem?_toList] at atX atY
  obtain ⟨boundX, rfl⟩ := List.getElem?_eq_some_iff.mp atX
  obtain ⟨boundY, rfl⟩ := List.getElem?_eq_some_iff.mp atY
  exact elements.get boundX boundY

end Lists

section Cycles

theorem not_self_of_acc {α : Type} {r : α → α → Prop} {a : α} (acyclic : Acc r a) : ¬ r a a := by
  induction acyclic with
  | intro a _ ih => exact fun self => ih a self self

variable {α : Type} {r : α → α → Prop} {a : α} {depth bound : Nat}

/-- Chains of parts lead down at most so many steps. -/
def Descends (r : α → α → Prop) : Nat → α → Prop
  | 0, _ => False
  | depth + 1, whole => ∀ part, r part whole → Descends r depth part

/-- Where nothing contains itself, the wholes on the way down are distinct. -/
theorem path_of_not_descends (acyclic : Acc r a) (deep : ¬ Descends r depth a) :
    ∃ path : List α, path.length = depth ∧ path.Nodup ∧
      ∀ whole ∈ path, (∃ part, r part whole) ∧ Relation.ReflTransGen r whole a := by
  induction depth generalizing a with
  | zero => exact ⟨[], rfl, List.nodup_nil, by simp⟩
  | succ depth ih =>
      rw [Descends, not_forall] at deep
      obtain ⟨part, step⟩ := deep
      rw [Classical.not_imp] at step
      obtain ⟨step, deeper⟩ := step
      obtain ⟨path, length, distinct, wholes⟩ := ih (acyclic.inv step) deeper
      refine ⟨a :: path, by rw [List.length_cons, length], ?_, ?_⟩
      · refine List.nodup_cons.mpr ⟨fun member => ?_, distinct⟩
        exact not_self_of_acc acyclic.transGen (.tail' (wholes a member).2 step)
      · intro whole member
        rcases List.mem_cons.mp member with rfl | member
        · exact ⟨⟨part, step⟩, .refl⟩
        · obtain ⟨some_part, reaches⟩ := wholes whole member
          exact ⟨some_part, reaches.tail step⟩

/-- Where nothing contains itself, chains of parts are no longer than there are places for wholes. -/
theorem descends_of_acyclic (place : α → Nat) (acyclic : Acc r a)
    (bounded : ∀ part whole, r part whole → place whole < bound)
    (injective : ∀ part part' whole whole', r part whole → r part' whole' →
      place whole = place whole' → whole = whole') : Descends r (bound + 1) a := by
  by_contra deep
  obtain ⟨path, length, distinct, wholes⟩ := path_of_not_descends acyclic deep
  have places : (path.map place).Nodup := by
    refine distinct.map_on fun x memberX y memberY same => ?_
    obtain ⟨⟨part, step⟩, -⟩ := wholes x memberX
    obtain ⟨⟨part', step'⟩, -⟩ := wholes y memberY
    exact injective part part' x y step step' same
  have fits : (path.map place).toFinset ⊆ Finset.range bound := by
    intro n placed
    obtain ⟨whole, member, rfl⟩ := List.mem_map.mp (List.mem_toFinset.mp placed)
    obtain ⟨⟨part, step⟩, -⟩ := wholes whole member
    exact Finset.mem_range.mpr (bounded part whole step)
  have count := Finset.card_le_card fits
  rw [List.toFinset_card_of_nodup places, List.length_map, length, Finset.card_range] at count
  omega

theorem shallow_iff_descends {depth : Nat} :
    heap.Shallow depth value ↔ Descends heap.Part depth value := by
  induction depth generalizing value with
  | zero => exact Iff.rfl
  | succ depth ih => exact forall_congr' fun part => forall_congr' fun _ => ih

/-- Data without cycles goes no deeper than there are conses and vectors. -/
theorem shallow_of_acyclic (acyclic : Acc heap.Part value) : heap.Shallow heap.size value := by
  -- The wholes are numbered, the conses before the vectors.
  let place : Value → Nat := fun
    | .cons a => a
    | .vector a => heap.cells.size + a
    | _ => 0
  refine shallow_iff_descends.mpr (descends_of_acyclic place acyclic ?_ ?_)
  · intro part whole step
    cases step with
    | car bound | cdr bound => exact Nat.lt_add_right _ (Nat.lt_add_right _ bound)
    | item bound _ => exact Nat.lt_add_right _ (Nat.add_lt_add_left bound _)
  · intro part part' whole whole' step step' same
    cases step <;> cases step' <;> simp only [place] at same <;> grind

/-- The conses of a spine without cycles are distinct. -/
theorem Spine.length_le (spine : heap.Spine value items tail) (acyclic : Acc heap.Part value) :
    items.length ≤ heap.cells.size := by
  have path : ∃ path : List Address, path.length = items.length ∧ path.Nodup ∧
      ∀ a ∈ path, a < heap.cells.size ∧ Relation.ReflTransGen heap.Part (.cons a) value := by
    induction spine with
    | done ends => exact ⟨[], rfl, List.nodup_nil, by simp⟩
    | @cons a items tail bound rest ih =>
        have step : heap.Part (heap.cell a).cdr (.cons a) := .cdr bound
        obtain ⟨path, length, distinct, wholes⟩ := ih (acyclic.inv step)
        refine ⟨a :: path, by rw [List.length_cons, length, List.length_cons], ?_, ?_⟩
        · refine List.nodup_cons.mpr ⟨fun member => ?_, distinct⟩
          exact not_self_of_acc acyclic.transGen (.tail' (wholes a member).2 step)
        · intro b member
          rcases List.mem_cons.mp member with rfl | member
          · exact ⟨bound, .refl⟩
          · exact ⟨(wholes b member).1, (wholes b member).2.tail step⟩
  obtain ⟨path, length, distinct, wholes⟩ := path
  have fits : path.toFinset ⊆ Finset.range heap.cells.size := fun a member =>
    Finset.mem_range.mpr (wholes a (List.mem_toFinset.mp member)).1
  have count := Finset.card_le_card fits
  rwa [List.toFinset_card_of_nodup distinct, length, Finset.card_range] at count

theorem Spine.ends (spine : heap.Spine value items tail) : tail.isCons = false := by
  induction spine with
  | done ends => exact ends
  | cons _ _ ih => exact ih

theorem Same.isCons_eq (same : heap.Same value copy) : copy.isCons = value.isCons := by
  cases same with
  | atom flat equal => cases value <;> cases copy <;> first | rfl | cases equal
  | cons | vector => rfl

/-- A list without cycles is split to its end. -/
theorem Spine.splitDotted_eq (spine : heap.Spine value items tail) (acyclic : Acc heap.Part value) :
    heap.splitDotted value = (items, tail) :=
  spineFrom_eq spine (spine.length_le acyclic) []

/-- The same data is equal as far as it goes. -/
theorem Same.similarWithin {depth : Nat} (same : heap.Same value copy)
    (shallow : heap.Shallow depth value) : heap.similarWithin depth value copy = true := by
  induction same generalizing depth with
  | @atom x y flat equal =>
      cases depth with
      | zero => cases shallow
      | succ depth => cases x <;> cases y <;> first | exact equal | cases flat
  | cons left right _ _ car cdr =>
      cases depth with
      | zero => cases shallow
      | succ depth =>
          rw [Heap.similarWithin, car (shallow _ (.car left)), cdr (shallow _ (.cdr left))]
          rfl
  | @vector a b left right size _ items =>
      cases depth with
      | zero => cases shallow
      | succ depth =>
          rw [Heap.similarWithin, size, beq_self_eq_true, Bool.true_and, List.all_eq_true]
          rintro ⟨x, y⟩ member
          obtain ⟨i, bound, at_i⟩ := List.getElem_of_mem member
          rw [List.getElem_zip, Prod.mk.injEq] at at_i
          rw [List.length_zip] at bound
          have boundX : i < (heap.vector a).toList.length := Nat.lt_of_lt_of_le bound (min_le_left _ _)
          have boundY : i < (heap.vector b).toList.length := Nat.lt_of_lt_of_le bound (min_le_right _ _)
          refine items i x y ?_ ?_ (shallow _ (.item left ?_))
          · rw [← Array.getElem?_toList, List.getElem?_eq_getElem boundX, at_i.1]
          · rw [← Array.getElem?_toList, List.getElem?_eq_getElem boundY, at_i.2]
          · rw [← at_i.1]
            exact List.getElem_mem boundX

/-- The same data is equal. -/
theorem Same.similar (same : heap.Same value copy) (acyclic : Acc heap.Part value) :
    heap.similar value copy = true :=
  same.similarWithin (shallow_of_acyclic acyclic)

end Cycles

end Heap

end LispScript
